/-
JSON values as `serde_json` holds and prints them.

A number is a `u64`, a negative `i64` or a finite `f64`, an object is its entries in
the order they were written. How a finite `f64` is printed is the `zmij` crate's, and
which characters `{:?}` prints as they are is a table of the standard library: both are
parameters here, the first with what its documentation promises.
-/
import Lpm.Lib.Escapes
import Lpm.Lib.Utf8

set_option autoImplicit false

open RustText Codes Escapes

namespace Lpm.Sync

open List

/-- A finite `f64`, by its bits: its exponent is not the one of the infinities. -/
@[ext]
structure Finite where
  bits : UInt64
  finite : bits.toNat / 2 ^ 52 % 2 ^ 11 ≠ 2 ^ 11 - 1
  deriving DecidableEq

/-- `==` of `f64`, where it is no NaN: the two zeros are equal. -/
def Finite.eq (f g : Finite) : Prop :=
  f.bits = g.bits ∨ f.bits.toNat % 2 ^ 63 = 0 ∧ g.bits.toNat % 2 ^ 63 = 0

inductive Number where
  | PosInt (n : UInt64)
  | NegInt (n : {n : ℤ // -2 ^ 63 ≤ n ∧ n < 0})
  | Float (f : Finite)
  deriving DecidableEq

/-- `==` of `serde_json::Number`. -/
def Number.eq : Number → Number → Prop
  | PosInt n, PosInt m => n = m
  | NegInt n, NegInt m => n = m
  | Float f, Float g => f.eq g
  | _, _ => False

inductive Json where
  | Null
  | Bool (b : Bool)
  | Number (n : Number)
  | String (s : Str)
  | Array (items : List Json)
  | Object (entries : List (Str × Json))

/-! ## Strings -/

/-- The letters of `serde_json`'s escapes. -/
def JSON_LETTERS : List (Char × Char) :=
  [('"', '"'), ('\\', '\\'), (Char.ofNat 8, 'b'), (Char.ofNat 12, 'f'), ('\n', 'n'), ('\r', 'r'),
    ('\t', 't')]

/-- The letters of `char::escape_debug` inside a `str`. -/
def DEBUG_LETTERS : List (Char × Char) :=
  [(Char.ofNat 0, '0'), ('\t', 't'), ('\r', 'r'), ('\n', 'n'), ('\\', '\\'), ('"', '"')]

variable (c : Char)

/-- The two digits of a control character behind `\u`. -/
def json_long : Str :=
  ['0', '0', Nat.digitChar (c.toNat / 16), Nat.digitChar (c.toNat % 16)]

/-- The code point of a character between braces. -/
def debug_long : Str := '\x7b' :: (Nat.toDigits 16 c.toNat ++ ['\x7d'])

theorem json_long_reads (c d : Char) (s t : Str) (hc : c.toNat < 32) (hd : d.toNat < 32)
    (h : json_long c ++ s = json_long d ++ t) : c = d ∧ s = t := by
  simp only [json_long, cons_append, nil_append, List.cons.injEq, true_and] at h
  have hhigh := digitChar_inj (by omega) (by omega) h.1
  have hlow := digitChar_inj (by omega) (by omega) h.2.1
  exact ⟨Char.toNat_inj.mp (by omega), h.2.2⟩

theorem debug_long_reads (c d : Char) (s t : Str) (h : debug_long c ++ s = debug_long d ++ t) :
    c = d ∧ s = t := by
  have hdigits : ∀ c : Char, ∀ x ∈ Nat.toDigits 16 c.toNat, x ≠ '\x7d' := by
    rintro c x hx rfl
    obtain ⟨d, hd, hbrace⟩ := mem_toDigits (by decide) hx
    have hnone : ∀ d < 16, '\x7d' ≠ Nat.digitChar d := by decide
    exact hnone d hd hbrace
  simp only [debug_long, cons_append, append_assoc, nil_append, List.cons.injEq,
    true_and] at h
  have hclose (s : Str) : Outside (· ≠ '\x7d') ('\x7d' :: s) := by
    intro x hx
    simpa using hx.symm
  obtain ⟨hcode, hrest⟩ := runs_split (hdigits c) (hdigits d) (hclose s) (hclose t) h
  exact ⟨Char.toNat_inj.mp (toDigits_inj (by decide) (by decide) hcode), (List.cons.inj hrest).2⟩

/-- How `serde_json` writes a string. -/
def json_escaping : Escaping where
  letters := JSON_LETTERS
  plain c := 32 ≤ c.toNat
  long := json_long
  letters_differ := by decide
  letters_ne_u := by decide
  backslash := by decide
  quote := by decide
  long_reads c d s t _ hc _ hd h :=
    json_long_reads c d s t (by simpa using hc) (by simpa using hd) h

/-- How `{:?}` writes a `str`, with the characters `printable` holds of as they are. -/
def debug_escaping (printable : Char → Bool) : Escaping where
  letters := DEBUG_LETTERS
  plain := printable
  long := debug_long
  letters_differ := by decide
  letters_ne_u := by decide
  backslash := by decide
  quote := by decide
  long_reads c d s t _ _ _ _ h := debug_long_reads c d s t h

/-! ## Numbers -/

/-- The characters of a number. -/
def is_numeral : Prop := c.isDigit = true ∨ c ∈ ['-', '+', '.', 'e']

/-- What the `zmij` crate promises of a finite `f64`: it prints as a decimal with a point or an
exponent, which reads back as the number it was. -/
structure FloatText (text : Finite → Str) : Prop where
  injective : ∀ f g, text f = text g → f = g
  numeral : ∀ f, ∀ c ∈ text f, is_numeral c
  fraction : ∀ f, ∃ c ∈ text f, c = '.' ∨ c = 'e'

/-- `Number::to_string`, with the text of a finite `f64`. -/
def Number.to_string (float_text : Finite → Str) : Number → Str
  | PosInt n => Nat.toDigits 10 n.toNat
  | NegInt n => '-' :: Nat.toDigits 10 n.val.natAbs
  | Float f => float_text f

variable {float_text : Finite → Str}

theorem digit_of_mem {n : ℕ} {c : Char} (h : c ∈ Nat.toDigits 10 n) : c.isDigit = true :=
  Nat.isDigit_of_mem_toDigits (by decide) (by decide) h

variable (hfloat : FloatText float_text)
include hfloat

variable (n : Number)

theorem Number.numeral_to_string :
    ∀ c ∈ n.to_string float_text, is_numeral c := by
  intro c hc
  cases n with
  | PosInt n => exact Or.inl (digit_of_mem hc)
  | NegInt n =>
    rw [Number.to_string, mem_cons] at hc
    rcases hc with rfl | hc
    · exact Or.inr (by decide)
    · exact Or.inl (digit_of_mem hc)
  | Float f => exact hfloat.numeral f c hc

/-- A number is written with at least one character. -/
theorem Number.to_string_ne_nil :
    n.to_string float_text ≠ [] := by
  cases n with
  | PosInt n => exact Nat.toDigits_ne_nil
  | NegInt n => exact cons_ne_nil _ _
  | Float f =>
    obtain ⟨c, hc, -⟩ := hfloat.fraction f
    exact ne_nil_of_mem hc

/-- Neither a point nor an exponent stands in the text of an integer. -/
theorem Number.fraction_iff :
    (∃ c ∈ n.to_string float_text, c = '.' ∨ c = 'e') ↔ ∃ f, n = .Float f := by
  have hdigits (k : ℕ) : ¬ ∃ c ∈ Nat.toDigits 10 k, c = '.' ∨ c = 'e' := by
    rintro ⟨c, hc, rfl | rfl⟩
    · exact absurd (digit_of_mem hc) (by decide)
    · exact absurd (digit_of_mem hc) (by decide)
  cases n with
  | PosInt n => simpa [Number.to_string] using hdigits n.toNat
  | NegInt n => simpa [Number.to_string] using hdigits n.val.natAbs
  | Float f => exact iff_of_true (hfloat.fraction f) ⟨f, rfl⟩

/-- The text of a number tells it from every other. -/
theorem Number.to_string_inj {n m : Number}
    (h : n.to_string float_text = m.to_string float_text) : n = m := by
  have hfraction : (∃ f, n = .Float f) ↔ ∃ f, m = .Float f := by
    rw [← Number.fraction_iff hfloat, ← Number.fraction_iff hfloat, h]
  have hsign (k l : ℕ) : '-' :: Nat.toDigits 10 k ≠ Nat.toDigits 10 l := by
    intro heq
    have := @digit_of_mem l '-' (heq ▸ mem_cons_self)
    exact absurd this (by decide)
  cases n with
  | PosInt n =>
    cases m with
    | PosInt m =>
      rw [UInt64.toNat_inj.mp (toDigits_inj (by decide) (by decide) h)]
    | NegInt m => exact absurd h.symm (hsign _ _)
    | Float g => simp at hfraction
  | NegInt n =>
    cases m with
    | PosInt m => exact absurd h (hsign _ _)
    | NegInt m =>
      have habs := toDigits_inj (by decide) (by decide) (List.cons.inj h).2
      have hn := n.property
      have hm := m.property
      rw [Subtype.ext (show n.val = m.val by omega)]
    | Float g => simp at hfraction
  | Float f =>
    cases m with
    | PosInt m => simp at hfraction
    | NegInt m => simp at hfraction
    | Float g => rw [hfloat.injective f g h]

/-- A number is read back where something else than a number's character follows. -/
theorem Number.reads :
    ReadsAs Eq (Number.to_string float_text) (Outside is_numeral) n :=
  ReadsAs.token (Number.numeral_to_string hfloat) fun _ => Number.to_string_inj hfloat

end Lpm.Sync
