/-
Where the command of a dynamic label ends: `command_end` of `label_template.rs`.

The scanner goes over the bytes of the text with a stack of what is open, a command or
double quotes. The grammar is over characters: `Command` is what may stand between a `$(`
and its `)`, and `Quoted` what may stand between double quotes. `command_end_iff` says that
the scanner finds the `)` behind the one command that ends there.
-/
import Lpm.Lib.Utf8

set_option autoImplicit false

namespace Lpm.Labels

open List Option

open RustText Utf8

/-! ## The scanner -/

inductive Scope where
  | command
  | quoted
  deriving DecidableEq

/-- A byte literal. -/
def byte (c : Char) : UInt8 := UInt8.ofNat c.toNat

/-- The loop of `command_end` at index `i`, with the bytes from there on. The last scope of
the source's vector comes first. -/
def command_end_from : List Scope → ℕ → List UInt8 → Option ℕ
  | _, _, [] => none
  | scopes, i, b :: rest =>
    let in_quotes := decide (scopes.head? = some .quoted)
    if b = byte '\\' then command_end_from scopes (i + 2) rest.tail
    else if b = byte '"' then
      if in_quotes then command_end_from scopes.tail (i + 1) rest
      else command_end_from (.quoted :: scopes) (i + 1) rest
    else if b = byte '$' ∧ in_quotes ∧ rest.head? = some (byte '(') then
      command_end_from (.command :: scopes) (i + 2) rest.tail
    else if b = byte '\'' ∧ ¬in_quotes then
      match rest.idxOf? (byte '\'') with
      | none => none
      | some n => command_end_from scopes (i + n + 2) (rest.drop (n + 1))
    else if b = byte '(' ∧ ¬in_quotes then command_end_from (.command :: scopes) (i + 1) rest
    else if b = byte ')' ∧ ¬in_quotes then
      if scopes.tail.isEmpty then some i else command_end_from scopes.tail (i + 1) rest
    else command_end_from scopes (i + 1) rest
termination_by _ _ bytes => bytes.length
decreasing_by
  all_goals
    simp only [List.length_cons, List.length_tail, List.length_drop]
    omega

/-- `command_end`. -/
def command_end (s : Str) : Option ℕ := command_end_from [.command] 0 (as_bytes s)

/-! ## The grammar -/

mutual

/-- A command: escapes, single quotes, double quotes and balanced parentheses. -/
inductive Command : Str → Prop
  | nil : Command []
  | escape (c : Char) {s : Str} : Command s → Command ('\\' :: c :: s)
  | single {q s : Str} : '\'' ∉ q → Command s → Command ('\'' :: (q ++ '\'' :: s))
  | double {q s : Str} : Quoted q → Command s → Command ('"' :: (q ++ '"' :: s))
  | parens {t s : Str} : Command t → Command s → Command ('(' :: (t ++ ')' :: s))
  | plain {c : Char} {s : Str} : c ∉ ['\\', '\'', '"', '(', ')'] → Command s → Command (c :: s)

/-- The inside of double quotes: escapes and nested `$(…)`. -/
inductive Quoted : Str → Prop
  | nil : Quoted []
  | escape (c : Char) {s : Str} : Quoted s → Quoted ('\\' :: c :: s)
  | subst {t s : Str} : Command t → Quoted s → Quoted ('$' :: '(' :: (t ++ ')' :: s))
  | plain {c : Char} {s : Str} : c ∉ ['\\', '"'] → ¬(c = '$' ∧ s.head? = some '(') → Quoted s → Quoted (c :: s)

end

/-- The text of a scope. -/
def Inside : Scope → Str → Prop
  | .command => Command
  | .quoted => Quoted

/-- What closes a scope. -/
def closer : Scope → Char
  | .command => ')'
  | .quoted => '"'

/-- A text that closes every scope of a stack and ends with the last of them. -/
def Ends : List Scope → Str → Prop
  | [], x => x = []
  | scope :: scopes, x => ∃ t u, x = t ++ closer scope :: u ∧ Inside scope t ∧ Ends scopes u

section
variable {scope inner : Scope} {scopes : List Scope} {x t p : Str} {c : Char}

/-! ## One character of a text that closes a stack -/

theorem inside_nil (scope : Scope) : Inside scope [] := by
  cases scope with
  | command => exact Command.nil
  | quoted => exact Quoted.nil

theorem inside_escape (scope : Scope) : Inside scope ('\\' :: t) ↔ ∃ c s, t = c :: s ∧ Inside scope s := by
  cases scope with
  | command =>
    constructor
    · intro h
      cases h with
      | escape c h => exact ⟨c, _, rfl, h⟩
      | plain hc => exact absurd mem_cons_self hc
    · rintro ⟨c, s, rfl, h⟩
      exact Command.escape c h
  | quoted =>
    constructor
    · intro h
      cases h with
      | escape c h => exact ⟨c, _, rfl, h⟩
      | plain hc => exact absurd mem_cons_self hc
    · rintro ⟨c, s, rfl, h⟩
      exact Quoted.escape c h

theorem command_single : Command ('\'' :: t) ↔ ∃ q s, t = q ++ '\'' :: s ∧ '\'' ∉ q ∧ Command s := by
  constructor
  · intro h
    cases h with
    | single hq h => exact ⟨_, _, rfl, hq, h⟩
    | plain hc => exact absurd (by decide) hc
  · rintro ⟨q, s, rfl, hq, h⟩
    exact Command.single hq h

theorem command_double : Command ('"' :: t) ↔ ∃ q s, t = q ++ '"' :: s ∧ Quoted q ∧ Command s := by
  constructor
  · intro h
    cases h with
    | double hq h => exact ⟨_, _, rfl, hq, h⟩
    | plain hc => exact absurd (by decide) hc
  · rintro ⟨q, s, rfl, hq, h⟩
    exact Command.double hq h

theorem command_parens : Command ('(' :: t) ↔ ∃ q s, t = q ++ ')' :: s ∧ Command q ∧ Command s := by
  constructor
  · intro h
    cases h with
    | parens hq h => exact ⟨_, _, rfl, hq, h⟩
    | plain hc => exact absurd (by decide) hc
  · rintro ⟨q, s, rfl, hq, h⟩
    exact Command.parens hq h

theorem command_plain (hc : c ∉ ['\\', '\'', '"', '(', ')']) : Command (c :: t) ↔ Command t := by
  constructor
  · intro h
    cases h with
    | plain _ h => exact h
    | escape | single | double | parens => exact absurd (by decide) hc
  · exact Command.plain hc

theorem command_close : ¬Command (')' :: t) := by
  intro h
  cases h with
  | plain hc => exact absurd (by decide) hc

theorem quoted_close : ¬Quoted ('"' :: t) := by
  intro h
  cases h with
  | plain hc => exact absurd (by decide) hc

theorem quoted_subst : Quoted ('$' :: '(' :: t) ↔ ∃ q s, t = q ++ ')' :: s ∧ Command q ∧ Quoted s := by
  constructor
  · intro h
    cases h with
    | subst hq h => exact ⟨_, _, rfl, hq, h⟩
    | plain _ hnot => exact absurd ⟨rfl, rfl⟩ hnot
  · rintro ⟨q, s, rfl, hq, h⟩
    exact Quoted.subst hq h

theorem quoted_plain (hc : c ∉ ['\\', '"']) (hnot : ¬(c = '$' ∧ t.head? = some '(')) : Quoted (c :: t) ↔ Quoted t := by
  constructor
  · intro h
    cases h with
    | plain _ _ h => exact h
    | escape => exact absurd (by decide) hc
    | subst => exact absurd ⟨rfl, rfl⟩ hnot
  · exact Quoted.plain hc hnot

/-- The closer ends the scope on top. -/
theorem ends_close : Ends (scope :: scopes) (closer scope :: x) ↔ Ends scopes x := by
  constructor
  · rintro ⟨t, u, hsplit, hin, hends⟩
    cases t with
    | nil => rwa [(List.cons.inj hsplit).2]
    | cons c t =>
      obtain ⟨rfl, -⟩ := List.cons.inj hsplit
      cases scope with
      | command => exact absurd hin command_close
      | quoted => exact absurd hin quoted_close
  · intro h
    exact ⟨[], x, rfl, inside_nil scope, h⟩

/-- Characters in front that do not close the scope on top belong to it. -/
theorem ends_append (hp : closer scope ∉ p) :
    Ends (scope :: scopes) (p ++ x) ↔ ∃ t u, x = t ++ closer scope :: u ∧ Inside scope (p ++ t) ∧ Ends scopes u := by
  constructor
  · rintro ⟨t, u, hsplit, hin, hends⟩
    rcases List.append_eq_append_iff.mp hsplit with ⟨t', rfl, hx⟩ | ⟨cut, rfl, hcut⟩
    · exact ⟨t', u, hx, hin, hends⟩
    · cases cut with
      | nil => exact ⟨[], u, hcut.symm, by simpa using hin, hends⟩
      | cons d cut =>
        obtain ⟨rfl, -⟩ := List.cons.inj hcut
        exact absurd (List.mem_append_right _ List.mem_cons_self) hp
  · rintro ⟨t, u, rfl, hin, hends⟩
    exact ⟨p ++ t, u, (List.append_assoc _ _ _).symm, hin, hends⟩

/-- An opener puts its scope on top. -/
theorem ends_open (hp : closer scope ∉ p)
    (h : ∀ t, Inside scope (p ++ t) ↔ ∃ q s, t = q ++ closer inner :: s ∧ Inside inner q ∧ Inside scope s) :
    Ends (scope :: scopes) (p ++ x) ↔ Ends (inner :: scope :: scopes) x := by
  rw [ends_append hp]
  constructor
  · rintro ⟨t, u, rfl, hin, hends⟩
    obtain ⟨q, s, rfl, hq, hs⟩ := (h t).mp hin
    exact ⟨q, s ++ closer scope :: u, List.append_assoc _ _ _, hq, s, u, rfl, hs, hends⟩
  · rintro ⟨q, y, rfl, hq, s, u, rfl, hs, hends⟩
    exact ⟨q ++ closer inner :: s, u, by simp, (h _).mpr ⟨q, s, rfl, hq, hs⟩, hends⟩

theorem ends_escape : Ends (scope :: scopes) ('\\' :: x) ↔ ∃ c y, x = c :: y ∧ Ends (scope :: scopes) y := by
  have hp : closer scope ∉ ['\\'] := by
    cases scope with
    | command => decide
    | quoted => decide
  have happ := @ends_append scope scopes x ['\\'] hp
  refine happ.trans ⟨?_, ?_⟩
  · rintro ⟨t, u, rfl, hin, hends⟩
    obtain ⟨c, s, rfl, hs⟩ := (inside_escape scope).mp hin
    exact ⟨c, s ++ closer scope :: u, rfl, s, u, rfl, hs, hends⟩
  · rintro ⟨c, y, rfl, s, u, rfl, hs, hends⟩
    exact ⟨c :: s, u, rfl, (inside_escape scope).mpr ⟨c, s, rfl, hs⟩, hends⟩

theorem ends_single :
    Ends (.command :: scopes) ('\'' :: x) ↔ ∃ q y, x = q ++ '\'' :: y ∧ '\'' ∉ q ∧ Ends (.command :: scopes) y := by
  have happ := @ends_append .command scopes x ['\''] (by decide)
  refine happ.trans ⟨?_, ?_⟩
  · rintro ⟨t, u, rfl, hin, hends⟩
    obtain ⟨q, s, rfl, hq, hs⟩ := command_single.mp hin
    exact ⟨q, s ++ ')' :: u, List.append_assoc _ _ _, hq, s, u, rfl, hs, hends⟩
  · rintro ⟨q, y, rfl, hq, s, u, rfl, hs, hends⟩
    exact ⟨q ++ '\'' :: s, u, by simp [closer], command_single.mpr ⟨q, s, rfl, hq, hs⟩, hends⟩

theorem ends_plain (hp : c ≠ closer scope) (h : ∀ t u, x = t ++ closer scope :: u → (Inside scope (c :: t) ↔ Inside scope t)) :
    Ends (scope :: scopes) (c :: x) ↔ Ends (scope :: scopes) x := by
  have happ := @ends_append scope scopes x [c] (by simpa using Ne.symm hp)
  refine happ.trans ⟨?_, ?_⟩
  · rintro ⟨t, u, hx, hin, hends⟩
    exact ⟨t, u, hx, (h t u hx).mp hin, hends⟩
  · rintro ⟨t, u, hx, hin, hends⟩
    exact ⟨t, u, hx, (h t u hx).mpr hin, hends⟩

theorem not_ends_nil : ¬Ends (scope :: scopes) [] := by
  rintro ⟨t, u, hsplit, -⟩
  exact absurd hsplit (by simp)

/-! ## One character of the scanner -/

variable {i : ℕ} {s : Str} {bytes : List UInt8}

/-- The bytes that mean something to the scanner. -/
def SPECIAL : List Char := ['\\', '"', '$', '\'', '(', ')']

theorem scan_skip (h : ∀ b ∈ bytes, ∀ c ∈ SPECIAL, b ≠ byte c) (rest : List UInt8) :
    command_end_from scopes i (bytes ++ rest) = command_end_from scopes (i + bytes.length) rest := by
  induction bytes generalizing i with
  | nil => rfl
  | cons b bytes ih =>
    have hb := h b mem_cons_self
    simp only [SPECIAL, forall_mem_cons, not_mem_nil, false_imp_iff, implies_true, and_true] at hb
    obtain ⟨h1, h2, h3, h4, h5, h6⟩ := hb
    rw [cons_append, command_end_from]
    simp only [h1, h2, h3, h4, h5, h6, if_false, false_and]
    rw [ih fun b hb => h b (mem_cons_of_mem _ hb), length_cons]
    congr 1
    omega

theorem byte_lt {c : Char} (hc : c ∈ SPECIAL) : (byte c).toNat < 0x80 ∧ (byte c).toNat = c.val.toNat := by
  simp only [SPECIAL, mem_cons, not_mem_nil, or_false] at hc
  rcases hc with rfl | rfl | rfl | rfl | rfl | rfl
  · decide
  · decide
  · decide
  · decide
  · decide
  · decide

/-- The bytes of a character that is not special. -/
theorem scan_other (hc : c ∉ SPECIAL) (s : Str) :
    command_end_from scopes i (as_bytes (c :: s)) = command_end_from scopes (i + (as_bytes [c]).length) (as_bytes s) := by
  have hsingle : as_bytes [c] = String.utf8EncodeChar c := append_nil _
  rw [as_bytes_cons, hsingle]
  refine scan_skip ?_ _
  rintro b hb d hd rfl
  have hval := ascii_mem_encode (byte_lt hd).1 hb
  rw [(byte_lt hd).2] at hval
  obtain rfl : c = d := Char.ext (UInt32.toNat_inj.mp hval)
  exact hc hd

theorem as_bytes_special (hc : c ∈ SPECIAL) (s : Str) : as_bytes (c :: s) = byte c :: as_bytes s := by
  have hlow := byte_lt hc
  have henc : String.utf8EncodeChar c = [byte c] := by
    simp only [SPECIAL, mem_cons, not_mem_nil, or_false] at hc
    rcases hc with rfl | rfl | rfl | rfl | rfl | rfl
    · decide
    · decide
    · decide
    · decide
    · decide
    · decide
  rw [as_bytes_cons, henc]
  rfl

theorem scan_escape (c : Char) (s : Str) :
    command_end_from scopes i (as_bytes ('\\' :: c :: s))
      = command_end_from scopes (i + 1 + (as_bytes [c]).length) (as_bytes s) := by
  obtain ⟨b, tail, henc, htail⟩ := encode_tail c
  have hsingle : as_bytes [c] = b :: tail := (append_nil _).trans henc
  rw [as_bytes_special (by decide), command_end_from, if_pos rfl, as_bytes_cons, henc, hsingle]
  have hskip := @scan_skip scopes (i + 2) tail (fun b hb d hd heq => by
    have hcont := htail b hb
    rw [heq] at hcont
    exact absurd (byte_lt hd).1 (Nat.not_lt.mpr hcont.1)) (as_bytes s)
  rw [cons_append, tail_cons, hskip, length_cons]
  congr 1
  omega

theorem quote_mem (h : byte '\'' ∈ as_bytes s) : '\'' ∈ s := by
  have hquote : Char.ofNat (byte '\'').toNat = '\'' := by decide
  exact hquote ▸ ascii_mem_as_bytes (by decide) h

/-- Up to a quote there is no byte of one. -/
theorem idxOf_quote {q : Str} (hq : '\'' ∉ q) (s : Str) :
    (as_bytes (q ++ '\'' :: s)).idxOf? (byte '\'') = some (as_bytes q).length := by
  have hbytes : byte '\'' ∉ as_bytes q := fun h => hq (quote_mem h)
  rw [as_bytes_append, as_bytes_special (by decide), idxOf?_eq_some_iff]
  refine ⟨by simp, by simp, fun j hj => ?_⟩
  rw [getElem_append_left hj]
  have hne : (as_bytes q)[j] ≠ byte '\'' := fun h => hbytes (h ▸ getElem_mem hj)
  simpa using hne

theorem idxOf_no_quote (hs : '\'' ∉ s) : (as_bytes s).idxOf? (byte '\'') = none := by
  rw [idxOf?_eq_none_iff]
  exact fun h => hs (quote_mem h)

/-- The byte behind is a parenthesis when the character is one. -/
theorem head_open (s : Str) : (as_bytes s).head? = some (byte '(') ↔ s.head? = some '(' := by
  cases s with
  | nil => exact ⟨fun h => (nomatch h), fun h => (nomatch h)⟩
  | cons c s =>
    obtain ⟨b, tail, henc, -⟩ := encode_tail c
    rw [as_bytes_cons, henc, cons_append, head?_cons, head?_cons, some_inj, some_inj]
    constructor
    · rintro rfl
      have hval := @ascii_mem_encode (byte '(') (by decide) c (henc ▸ mem_cons_self)
      exact Char.ext (UInt32.toNat_inj.mp (hval.trans (by decide)))
    · rintro rfl
      exact (List.cons.inj (henc.symm.trans (by decide : _ = [byte '(']))).1

/-! ## The scanner finds what the grammar ends -/

/-- From here on the scanner finds the text that closes every scope. -/
def Finds (scopes : List Scope) (i : ℕ) (s : Str) : Prop :=
  ∀ k, command_end_from scopes i (as_bytes s) = some k
    ↔ ∃ x b, s = x ++ b ∧ Ends scopes x ∧ i + (as_bytes x).length = k + 1

/-- The scanner passes over a few characters, and so does the grammar. -/
theorem Finds.advance {scopes' : List Scope} (hrest : Finds scopes' (i + (as_bytes p).length) s)
    (hscan : command_end_from scopes i (as_bytes (p ++ s)) = command_end_from scopes' (i + (as_bytes p).length) (as_bytes s))
    (hends : ∀ x b, p ++ s = x ++ b → (Ends scopes x ↔ ∃ y, x = p ++ y ∧ Ends scopes' y)) :
    Finds scopes i (p ++ s) := by
  intro k
  rw [hscan, hrest k]
  constructor
  · rintro ⟨y, b, rfl, hy, hk⟩
    refine ⟨p ++ y, b, (append_assoc _ _ _).symm, ?_, ?_⟩
    · exact (hends (p ++ y) b (append_assoc _ _ _).symm).mpr ⟨y, rfl, hy⟩
    · rw [as_bytes_append, length_append]
      omega
  · rintro ⟨x, b, hsplit, hx, hk⟩
    obtain ⟨y, rfl, hy⟩ := (hends x b hsplit).mp hx
    refine ⟨y, b, ?_, hy, ?_⟩
    · rw [append_assoc] at hsplit
      exact append_cancel_left hsplit
    · rw [as_bytes_append, length_append] at hk
      omega

/-- The same for one character. -/
theorem Finds.advance_one {scopes' : List Scope} (hrest : Finds scopes' (i + (as_bytes [c]).length) s)
    (hscan : command_end_from (scope :: scopes) i (as_bytes (c :: s))
      = command_end_from scopes' (i + (as_bytes [c]).length) (as_bytes s))
    (hends : ∀ y b, s = y ++ b → (Ends (scope :: scopes) (c :: y) ↔ Ends scopes' y)) :
    Finds (scope :: scopes) i (c :: s) := by
  refine @Finds.advance (scope :: scopes) [c] i s scopes' hrest hscan ?_
  intro x b hsplit
  cases x with
  | nil => exact ⟨fun h => absurd h not_ends_nil, fun ⟨y, hy, _⟩ => absurd hy (by simp)⟩
  | cons d y =>
    obtain ⟨rfl, hrest⟩ := List.cons.inj hsplit
    rw [hends y b hrest]
    constructor
    · exact fun h => ⟨y, rfl, h⟩
    · rintro ⟨z, hz, h⟩
      rw [(List.cons.inj hz).2]
      exact h

/-- A character that neither opens nor closes anything. -/
theorem Finds.pass (hrest : Finds (scope :: scopes) (i + (as_bytes [c]).length) s)
    (hscan : command_end_from (scope :: scopes) i (as_bytes (c :: s))
      = command_end_from (scope :: scopes) (i + (as_bytes [c]).length) (as_bytes s))
    (hp : c ≠ closer scope)
    (hin : ∀ t u, s = t ++ u → (Inside scope (c :: t) ↔ Inside scope t)) :
    Finds (scope :: scopes) i (c :: s) := by
  refine Finds.advance_one hrest hscan ?_
  rintro y b rfl
  refine ends_plain hp ?_
  rintro t u rfl
  exact hin t (closer scope :: u ++ b) (append_assoc _ _ _)

/-- The scanner is right about every shorter text. -/
def FindsBelow (s : Str) : Prop :=
  ∀ scopes i s', s'.length ≤ s.length → scopes.getLast? = some .command → Finds scopes i s'

variable (hground : (scope :: scopes).getLast? = some .command)
include hground

theorem getLast_over (inner : Scope) :
    (inner :: scope :: scopes).getLast? = some .command := by
  rw [getLast?_cons_cons]
  exact hground

omit hground in
theorem length_special (hc : c ∈ SPECIAL) : (as_bytes [c]).length = 1 := by
  rw [as_bytes_special hc]
  rfl

theorem finds_escape (hnext : FindsBelow s) :
    Finds (scope :: scopes) i ('\\' :: s) := by
  cases s with
  | nil =>
    -- a backslash at the end escapes nothing
    intro k
    rw [as_bytes_special (by decide), command_end_from, if_pos rfl, as_bytes_nil, tail_nil, command_end_from]
    refine ⟨fun h => (nomatch h), fun ⟨x, b, hsplit, hx, _⟩ => ?_⟩
    cases x with
    | nil => exact absurd hx not_ends_nil
    | cons d x =>
      obtain ⟨rfl, hnil⟩ := List.cons.inj hsplit
      rw [(append_eq_nil_iff.mp hnil.symm).1] at hx
      obtain ⟨c, y, hy, -⟩ := ends_escape.mp hx
      exact nomatch hy
  | cons c s =>
    have hlen : (as_bytes ['\\', c]).length = 1 + (as_bytes [c]).length := by
      rw [as_bytes_special (by decide), length_cons, Nat.add_comm]
    refine @Finds.advance (scope :: scopes) ['\\', c] i s (scope :: scopes) ?_ ?_ ?_
    · exact hnext _ _ _ (Nat.le_succ _) hground
    · rw [hlen, ← Nat.add_assoc]
      exact scan_escape c s
    · intro x b hsplit
      constructor
      · intro hx
        cases x with
        | nil => exact absurd hx not_ends_nil
        | cons d x =>
          obtain ⟨rfl, hrest⟩ := List.cons.inj hsplit
          obtain ⟨e, y, rfl, hy⟩ := ends_escape.mp hx
          obtain ⟨rfl, -⟩ := List.cons.inj hrest
          exact ⟨y, rfl, hy⟩
      · rintro ⟨y, rfl, hy⟩
        exact ends_escape.mpr ⟨c, y, rfl, hy⟩

theorem finds_double (hnext : FindsBelow s) :
    Finds (scope :: scopes) i ('"' :: s) := by
  cases scope with
  | command =>
    refine Finds.advance_one (hnext (.quoted :: .command :: scopes) _ _ (Nat.le_refl _) (getLast_over hground _)) ?_
      fun y _ _ => ?_
    · rw [as_bytes_special (by decide), length_special (by decide), command_end_from]
      simp [byte]
    · exact @ends_open .command .quoted scopes y ['"'] (by decide) fun t => command_double
  | quoted =>
    obtain ⟨top, r, rfl⟩ : ∃ top r, scopes = top :: r := by
      cases scopes with
      | nil => exact absurd hground (by decide)
      | cons top r => exact ⟨top, r, rfl⟩
    rw [getLast?_cons_cons] at hground
    refine Finds.advance_one (hnext (top :: r) _ _ (Nat.le_refl _) hground) ?_ fun y _ _ => ?_
    · rw [as_bytes_special (by decide), length_special (by decide), command_end_from]
      simp [byte]
    · exact @ends_close .quoted (top :: r) y

theorem finds_dollar (hnext : FindsBelow s) :
    Finds (scope :: scopes) i ('$' :: s) := by
  -- a dollar matters only between quotes and before a parenthesis
  have hpass : ¬(scope = .quoted ∧ s.head? = some '(') →
      command_end_from (scope :: scopes) i (as_bytes ('$' :: s))
        = command_end_from (scope :: scopes) (i + (as_bytes ['$']).length) (as_bytes s) := by
    intro hnot
    rw [← head_open] at hnot
    rw [as_bytes_special (by decide), length_special (by decide), command_end_from]
    have hthird : ¬(byte '$' = byte '$' ∧ decide ((scope :: scopes).head? = some Scope.quoted) = true
        ∧ (as_bytes s).head? = some (byte '(')) := by
      rintro ⟨-, hscope, hopen⟩
      exact hnot ⟨by simpa using hscope, hopen⟩
    rw [if_neg (by decide), if_neg (by decide), if_neg hthird, if_neg (by simp [byte]), if_neg (by simp [byte]),
      if_neg (by simp [byte])]
  cases scope with
  | command =>
    refine Finds.pass (hnext _ _ _ (Nat.le_refl _) hground) (hpass (by simp)) (by decide) fun t u _ => ?_
    exact command_plain (by decide)
  | quoted =>
    by_cases hopen : s.head? = some '('
    -- `$(` opens a command of its own
    · obtain ⟨s', rfl⟩ : ∃ s', s = '(' :: s' := by
        cases s with
        | nil => exact nomatch hopen
        | cons d s' =>
          obtain rfl : d = '(' := by simpa using hopen
          exact ⟨s', rfl⟩
      refine @Finds.advance (.quoted :: scopes) ['$', '('] i s' (.command :: .quoted :: scopes) ?_ ?_ ?_
      · exact hnext _ _ _ (Nat.le_succ _) (getLast_over hground _)
      · rw [cons_append, cons_append, nil_append, as_bytes_special (by decide),
          as_bytes_special (by decide), command_end_from]
        simp [byte]
        rfl
      · intro x b hsplit
        have hsubst := fun y => @ends_open .quoted .command scopes y ['$', '('] (by decide) fun t => quoted_subst
        constructor
        · intro hx
          cases x with
          | nil => exact absurd hx not_ends_nil
          | cons d x =>
            obtain ⟨rfl, hrest⟩ := List.cons.inj hsplit
            cases x with
            | nil =>
              have hdollar := (@ends_append .quoted scopes [] ['$'] (by decide)).mp hx
              obtain ⟨t, u, hnil, -⟩ := hdollar
              exact absurd hnil (by simp)
            | cons e x =>
              obtain ⟨rfl, -⟩ := List.cons.inj hrest
              exact ⟨x, rfl, (hsubst x).mp hx⟩
        · rintro ⟨y, rfl, hy⟩
          exact (hsubst y).mpr hy
    · refine Finds.pass (hnext _ _ _ (Nat.le_refl _) hground) (hpass fun h => hopen h.2) (by decide) ?_
      rintro t u rfl
      refine quoted_plain (by decide) fun h => hopen ?_
      rw [head?_append, h.2]
      rfl

omit hground in
/-- Between double quotes a single quote and parentheses mean nothing. -/
theorem finds_in_quotes (hc : c ∈ ['\'', '(', ')']) (hground : (Scope.quoted :: scopes).getLast? = some .command)
    (hnext : FindsBelow s) : Finds (.quoted :: scopes) i (c :: s) := by
  have hspecial : c ∈ SPECIAL := (show ['\'', '(', ')'] ⊆ SPECIAL by decide) hc
  have hnot : byte c ≠ byte '\\' ∧ byte c ≠ byte '"' ∧ byte c ≠ byte '$' ∧ c ≠ '"' ∧ c ≠ '\\' ∧ c ≠ '$' := by
    simp only [mem_cons, not_mem_nil, or_false] at hc
    rcases hc with rfl | rfl | rfl
    · decide
    · decide
    · decide
  refine Finds.pass (hnext _ _ _ (Nat.le_refl _) hground) ?_ hnot.2.2.2.1 fun t u _ => ?_
  · rw [as_bytes_special hspecial, length_special hspecial, command_end_from]
    simp [hnot]
  · exact quoted_plain (by simp [hnot]) fun h => hnot.2.2.2.2.2 h.1

theorem finds_single (hnext : FindsBelow s) :
    Finds (scope :: scopes) i ('\'' :: s) := by
  cases scope with
  | quoted => exact finds_in_quotes (by decide) hground hnext
  | command =>
    have hread : ∀ s, command_end_from (.command :: scopes) i (as_bytes ('\'' :: s))
        = match (as_bytes s).idxOf? (byte '\'') with
          | none => none
          | some n => command_end_from (.command :: scopes) (i + n + 2) ((as_bytes s).drop (n + 1)) := by
      intro s
      rw [as_bytes_special (by decide), command_end_from]
      simp [byte]
    by_cases hin : '\'' ∈ s
    · obtain ⟨q, s, rfl, hq⟩ := eq_append_cons_of_mem hin
      have hsplit : '\'' :: (q ++ '\'' :: s) = ('\'' :: q ++ ['\'']) ++ s := by simp
      have hlen : (as_bytes ('\'' :: q ++ ['\''])).length = (as_bytes q).length + 2 := by
        rw [as_bytes_append, length_append, as_bytes_special (by decide), length_special (by decide),
          length_cons]
      have hbytes : as_bytes (q ++ '\'' :: s) = (as_bytes q ++ [byte '\'']) ++ as_bytes s := by
        rw [as_bytes_append, as_bytes_special (by decide), append_assoc]
        rfl
      rw [hsplit]
      refine @Finds.advance (.command :: scopes) ('\'' :: q ++ ['\'']) i s (.command :: scopes) ?_ ?_ ?_
      · refine hnext _ _ _ ?_ hground
        rw [length_append, length_cons]
        omega
      · rw [← hsplit, hread, idxOf_quote hq, hlen]
        dsimp only
        rw [hbytes, drop_left' (by simp), Nat.add_assoc]
      · intro x b hx
        constructor
        · intro hends
          cases x with
          | nil => exact absurd hends not_ends_nil
          | cons d x =>
            rw [← hsplit] at hx
            obtain ⟨rfl, hrest⟩ := List.cons.inj hx
            obtain ⟨q', y, rfl, hq', hy⟩ := ends_single.mp hends
            -- both are what stands before the first quote
            have hfirst := split_once_append hq s
            have hsame : q ++ '\'' :: s = q' ++ '\'' :: (y ++ b) := hrest.trans (append_assoc _ _ _)
            rw [hsame, split_once_append hq'] at hfirst
            obtain ⟨rfl, -⟩ := Prod.mk.inj (some.inj hfirst)
            exact ⟨y, by simp, hy⟩
        · rintro ⟨y, rfl, hy⟩
          rw [append_assoc, cons_append]
          exact ends_single.mpr ⟨q, y, rfl, hq, hy⟩
    · intro k
      rw [hread, idxOf_no_quote hin]
      refine ⟨fun h => (nomatch h), fun ⟨x, b, hsplit, hx, _⟩ => ?_⟩
      cases x with
      | nil => exact absurd hx not_ends_nil
      | cons d x =>
        cases hsplit
        obtain ⟨q, y, rfl, -⟩ := ends_single.mp hx
        exact absurd (by simp) hin

theorem finds_open (hnext : FindsBelow s) :
    Finds (scope :: scopes) i ('(' :: s) := by
  cases scope with
  | quoted => exact finds_in_quotes (by decide) hground hnext
  | command =>
    refine Finds.advance_one (hnext (.command :: .command :: scopes) _ _ (Nat.le_refl _) (getLast_over hground _)) ?_
      fun y _ _ => ?_
    · rw [as_bytes_special (by decide), length_special (by decide), command_end_from]
      simp [byte]
    · exact @ends_open .command .command scopes y ['('] (by decide) fun t => command_parens

theorem finds_close (hnext : FindsBelow s) :
    Finds (scope :: scopes) i (')' :: s) := by
  cases scope with
  | quoted => exact finds_in_quotes (by decide) hground hnext
  | command =>
    have hread : command_end_from (.command :: scopes) i (as_bytes (')' :: s))
        = if scopes.isEmpty then some i else command_end_from scopes (i + 1) (as_bytes s) := by
      rw [as_bytes_special (by decide), command_end_from]
      simp [byte]
    cases scopes with
    | nil =>
      -- the last scope is closed here
      intro k
      rw [hread, isEmpty_nil, if_pos rfl]
      constructor
      · intro h
        cases h
        refine ⟨[')'], s, rfl, ⟨[], [], rfl, Command.nil, rfl⟩, ?_⟩
        rw [length_special (by decide)]
      · rintro ⟨x, b, hsplit, hx, hk⟩
        cases x with
        | nil => exact absurd hx not_ends_nil
        | cons d x =>
          obtain ⟨rfl, -⟩ := List.cons.inj hsplit
          obtain rfl : x = [] := (@ends_close .command [] x).mp hx
          rw [length_special (by decide)] at hk
          exact congrArg some (Nat.succ.inj hk)
    | cons top r =>
      rw [getLast?_cons_cons] at hground
      refine Finds.advance_one (hnext (top :: r) _ _ (Nat.le_refl _) hground) ?_ fun y _ _ => ?_
      · rw [hread, length_special (by decide)]
        rfl
      · exact @ends_close .command (top :: r) y

omit hground

/-- The scanner finds what the grammar ends, from any stack with a command at the bottom. -/
theorem scan_finds (hground : scopes.getLast? = some .command) : Finds scopes i s := by
  induction hn : s.length using Nat.strong_induction_on generalizing s i scopes with
  | _ n ih =>
    subst hn
    obtain ⟨scope, r, rfl⟩ : ∃ scope r, scopes = scope :: r := by
      cases scopes with
      | nil => exact nomatch hground
      | cons scope r => exact ⟨scope, r, rfl⟩
    cases s with
    | nil =>
      intro k
      rw [as_bytes_nil, command_end_from]
      refine ⟨fun h => (nomatch h), fun ⟨x, b, hsplit, hx, _⟩ => ?_⟩
      rw [(append_eq_nil_iff.mp hsplit.symm).1] at hx
      exact absurd hx not_ends_nil
    | cons c s =>
      have hnext : FindsBelow s := fun scopes' i' s' hle hground' =>
        ih s'.length (Nat.lt_succ_of_le hle) hground' rfl
      -- one lemma for each special character, and one for the others
      by_cases hc : c ∈ SPECIAL
      · simp only [SPECIAL, mem_cons, not_mem_nil, or_false] at hc
        rcases hc with rfl | rfl | rfl | rfl | rfl | rfl
        · exact finds_escape hground hnext
        · exact finds_double hground hnext
        · exact finds_dollar hground hnext
        · exact finds_single hground hnext
        · exact finds_open hground hnext
        · exact finds_close hground hnext
      · have hnot : ∀ d ∈ SPECIAL, c ≠ d := fun d hd heq => hc (heq ▸ hd)
        refine Finds.pass (hnext _ _ _ (Nat.le_refl _) hground) (scan_other hc s) ?_ fun t u _ => ?_
        · cases scope with
          | command => exact hnot _ (by decide)
          | quoted => exact hnot _ (by decide)
        · cases scope with
          | command => exact command_plain fun hin => hc ((show ['\\', '\'', '"', '(', ')'] ⊆ SPECIAL by decide) hin)
          | quoted =>
            exact quoted_plain (fun hin => hc ((show ['\\', '"'] ⊆ SPECIAL by decide) hin))
              fun h => hnot '$' (by decide) h.1

/-- `command_end` gives the place of the `)` behind a command, and nothing when there is no
command with a `)` behind it. -/
theorem command_end_iff (s : Str) (k : ℕ) :
    command_end s = some k ↔ ∃ a b, s = a ++ ')' :: b ∧ Command a ∧ k = (as_bytes a).length := by
  refine ((@scan_finds [.command] 0 s rfl) k).trans ⟨?_, ?_⟩
  · rintro ⟨x, b, rfl, ⟨a, u, rfl, ha, rfl⟩, hk⟩
    refine ⟨a, b, by simp [closer], ha, ?_⟩
    rw [as_bytes_append, length_append, closer, length_special (by decide)] at hk
    omega
  · rintro ⟨a, b, rfl, ha, rfl⟩
    refine ⟨a ++ [')'], b, by simp, ⟨a, [], rfl, ha, rfl⟩, ?_⟩
    rw [as_bytes_append, length_append, length_special (by decide)]
    omega

end

end Lpm.Labels
