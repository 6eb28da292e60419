/-
Texts that can be read back from the front of a longer one.

`ReadsAs R f Stop a`: whoever finds the text of `a` at the front of a list, with
something behind it that may stop it, knows the value up to `R` and what is behind. A
code that needs nothing behind it to stop reads back element by element when a list
of them is closed by a mark that no code starts with; and a text made of tokens reads
back where something else than a token's character follows.
-/
import Mathlib.Data.List.Nodup

set_option autoImplicit false

namespace Codes

open List

variable {α β γ : Type*}

/-- The text `f` writes of `a`, in front of anything that stops it, is the text of no
value but the ones `R` relates `a` to, in front of the same. -/
def ReadsAs (R : α → α → Prop) (f : α → List γ) (Stop : List γ → Prop) (a : α) : Prop :=
  ∀ b s t, Stop s → Stop t → f a ++ s = f b ++ t → R a b ∧ s = t

/-- Nothing is needed to stop the text. -/
def Anything (_ : List γ) : Prop := True

variable {R : α → α → Prop} {S : β → β → Prop} {f : α → List γ} {g : β → List γ}
  {Stop : List γ → Prop} {a : α} {b : β}

/-- A text with the mark behind it that stops it. -/
theorem ReadsAs.followed {mark : γ} (h : ReadsAs R f Stop a) (hmark : ∀ s, Stop (mark :: s)) :
    ReadsAs R (fun a => f a ++ [mark]) Anything a := by
  intro b s t _ _ heq
  simp only [append_assoc, singleton_append] at heq
  obtain ⟨hab, hrest⟩ := h b _ _ (hmark s) (hmark t) heq
  exact ⟨hab, (List.cons.inj hrest).2⟩

/-- Two texts one behind the other. -/
theorem ReadsAs.pair (hf : ReadsAs R f Anything a) (hg : ReadsAs S g Anything b) :
    ReadsAs (fun x y => R x.1 y.1 ∧ S x.2 y.2) (fun x : α × β => f x.1 ++ g x.2) Anything (a, b) := by
  rintro ⟨c, d⟩ s t _ _ heq
  simp only [append_assoc] at heq
  obtain ⟨hac, hrest⟩ := hf c _ _ trivial trivial heq
  obtain ⟨hbd, hst⟩ := hg d s t trivial trivial hrest
  exact ⟨⟨hac, hbd⟩, hst⟩

/-- A list of texts, closed by a mark that none of them starts with. -/
theorem ReadsAs.list {mark : γ} {xs : List α} (h : ∀ x ∈ xs, ReadsAs R f Anything x)
    (hstart : ∀ x, ∃ c cs, f x = c :: cs ∧ c ≠ mark) :
    ReadsAs (List.Forall₂ R) (fun xs => xs.flatMap f ++ [mark]) Anything xs := by
  induction xs with
  | nil =>
    intro ys s t _ _ heq
    cases ys with
    | nil => exact ⟨.nil, (List.cons.inj heq).2⟩
    | cons y ys =>
      obtain ⟨c, cs, hc, hne⟩ := hstart y
      simp only [flatMap_cons, hc, cons_append, flatMap_nil, nil_append] at heq
      exact absurd (List.cons.inj heq).1.symm hne
  | cons x xs ih =>
    intro ys s t _ _ heq
    cases ys with
    | nil =>
      obtain ⟨c, cs, hc, hne⟩ := hstart x
      simp only [flatMap_cons, hc, cons_append, flatMap_nil, nil_append] at heq
      exact absurd (List.cons.inj heq).1 hne
    | cons y ys =>
      simp only [flatMap_cons, append_assoc] at heq
      obtain ⟨hxy, hrest⟩ := h x mem_cons_self y _ _ trivial trivial heq
      rw [← append_assoc, ← append_assoc] at hrest
      obtain ⟨hxys, hst⟩ :=
        ih (fun x hx => h x (mem_cons_of_mem _ hx)) ys s t trivial trivial hrest
      exact ⟨.cons hxy hxys, hst⟩

/-- Where a run of characters ends: behind it comes another one, or nothing. -/
def Outside (p : γ → Prop) (s : List γ) : Prop := ∀ c ∈ s.head?, ¬ p c

theorem runs_split {p : γ → Prop} {x y s t : List γ} (hx : ∀ c ∈ x, p c) (hy : ∀ c ∈ y, p c)
    (hs : Outside p s) (ht : Outside p t) (h : x ++ s = y ++ t) : x = y ∧ s = t := by
  induction x generalizing y with
  | nil =>
    cases y with
    | nil => exact ⟨rfl, h⟩
    | cons c y =>
      rw [nil_append] at h
      exact absurd (hy c mem_cons_self) (hs c (by rw [h]; rfl))
  | cons c x ih =>
    cases y with
    | nil =>
      rw [nil_append] at h
      exact absurd (hx c mem_cons_self) (ht c (by rw [← h]; rfl))
    | cons d y =>
      obtain ⟨rfl, hrest⟩ := List.cons.inj h
      obtain ⟨rfl, hst⟩ := ih (fun c hc => hx c (mem_cons_of_mem _ hc))
        (fun c hc => hy c (mem_cons_of_mem _ hc)) hrest
      exact ⟨rfl, hst⟩

/-- A text made of token characters reads back where the token ends. -/
theorem ReadsAs.token {p : γ → Prop} (hp : ∀ a, ∀ c ∈ f a, p c)
    (hinj : ∀ b, f a = f b → R a b) : ReadsAs R f (Outside p) a := by
  intro b s t hs ht heq
  obtain ⟨htext, hst⟩ := runs_split (hp a) (hp b) hs ht heq
  exact ⟨hinj b htext, hst⟩

end Codes

/-! ## Texts between quotes

An `Escaping` names the characters written with a backslash and one letter, those
written as they are, and how the rest is spelled out behind `\u`. What it asks is that
the letters tell the characters apart, that none of them is the `u`, that the backslash
and the quote are never written as they are, and that the spelling behind `\u` can be
read back. Then the quoted text can be read back from the front of a longer one. -/

namespace Escapes

open List

open Codes

/-! ## Numbers in digits -/

theorem digitChar_inj {m n : ℕ} (hm : m < 16) (hn : n < 16) (h : m.digitChar = n.digitChar) :
    m = n := by
  have hall : ∀ m < 16, ∀ n < 16, Nat.digitChar m = Nat.digitChar n → m = n := by decide
  exact hall m hm n hn h

theorem mem_toDigits {base : ℕ} (hone : 1 < base) {c : Char} :
    ∀ {n : ℕ}, c ∈ Nat.toDigits base n → ∃ d < base, c = d.digitChar := by
  intro n
  induction n using Nat.strongRecOn with
  | ind n ih =>
    intro hc
    rw [Nat.toDigits_eq_if hone] at hc
    by_cases hn : n < base
    · rw [if_pos hn, mem_singleton] at hc
      exact ⟨n, hn, hc⟩
    · rw [if_neg hn, mem_append, mem_singleton] at hc
      rcases hc with hc | hc
      · exact ih (n / base) (Nat.div_lt_self (by omega) hone) hc
      · exact ⟨n % base, Nat.mod_lt n (by omega), hc⟩

/-- The digits of a number tell it from every other. -/
theorem toDigits_inj {base : ℕ} (hone : 1 < base) (hbase : base ≤ 16) :
    ∀ {m n : ℕ}, Nat.toDigits base m = Nat.toDigits base n → m = n := by
  intro m
  -- the last digit is the remainder, and the digits before it those of the quotient
  induction m using Nat.strongRecOn with
  | ind m ih =>
    intro n h
    have hrest (k : ℕ) : k % base < 16 := Nat.lt_of_lt_of_le (Nat.mod_lt k (by omega)) hbase
    have hlen (k : ℕ) : 0 < (Nat.toDigits base k).length := Nat.length_toDigits_pos
    rw [Nat.toDigits_eq_if hone, @Nat.toDigits_eq_if base n hone] at h
    by_cases hm : m < base
    · by_cases hn : n < base
      · rw [if_pos hm, if_pos hn] at h
        exact digitChar_inj (by omega) (by omega) (List.cons.inj h).1
      · rw [if_pos hm, if_neg hn] at h
        have hlast := congrArg List.length h
        have := hlen (n / base)
        rw [length_append, length_singleton, length_singleton] at hlast
        omega
    · by_cases hn : n < base
      · rw [if_neg hm, if_pos hn] at h
        have hlast := congrArg List.length h
        have := hlen (m / base)
        rw [length_append, length_singleton, length_singleton] at hlast
        omega
      · rw [if_neg hm, if_neg hn] at h
        obtain ⟨hquot, hlast⟩ := append_inj' h rfl
        have hdiv := ih (m / base) (Nat.div_lt_self (by omega) hone) hquot
        have hmod := digitChar_inj (hrest m) (hrest n) (List.cons.inj hlast).1
        rw [← Nat.div_add_mod m base, ← Nat.div_add_mod n base, hdiv, hmod]

/-! ## Characters -/

/-- How characters are written between two quotes. -/
structure Escaping where
  /-- The characters written as a backslash and a letter. -/
  letters : List (Char × Char)
  /-- Written as it is. -/
  plain : Char → Bool
  /-- What stands behind `\u` otherwise. -/
  long : Char → List Char
  letters_differ : (letters.map Prod.snd).Nodup
  letters_ne_u : 'u' ∉ letters.map Prod.snd
  backslash : '\\' ∈ letters.map Prod.fst
  quote : '"' ∈ letters.map Prod.fst
  long_reads : ∀ c d s t, c ∉ letters.map Prod.fst → plain c = false →
    d ∉ letters.map Prod.fst → plain d = false → long c ++ s = long d ++ t → c = d ∧ s = t

variable (e : Escaping)

/-- One character between the quotes. -/
def Escaping.escape (c : Char) : List Char :=
  match e.letters.lookup c with
  | some letter => ['\\', letter]
  | none => if e.plain c then [c] else '\\' :: 'u' :: e.long c

/-- A text between its quotes. -/
def Escaping.quoted (s : List Char) : List Char := '"' :: s.flatMap e.escape ++ ['"']

variable {e}

theorem lookup_eq_none {table : List (Char × Char)} {c : Char} :
    table.lookup c = none ↔ c ∉ table.map Prod.fst := by
  rw [List.lookup_eq_none_iff, List.mem_map]
  constructor
  · rintro h ⟨p, hp, rfl⟩
    simpa using h p hp
  · intro h p hp
    rw [bne_iff_ne]
    rintro rfl
    exact h ⟨p, hp, rfl⟩

theorem mem_of_lookup {table : List (Char × Char)} {c l : Char} (h : table.lookup c = some l) :
    (c, l) ∈ table := by
  obtain ⟨before, after, rfl, -⟩ := List.lookup_eq_some_iff.mp h
  simp

variable (c : Char)

/-- The three ways a character is written. -/
theorem Escaping.escape_cases :
    (∃ letter, (c, letter) ∈ e.letters ∧ e.escape c = ['\\', letter]) ∨
    (c ∉ e.letters.map Prod.fst ∧ e.plain c = true ∧ e.escape c = [c]) ∨
    (c ∉ e.letters.map Prod.fst ∧ e.plain c = false ∧ e.escape c = '\\' :: 'u' :: e.long c) := by
  unfold Escaping.escape
  cases hshort : e.letters.lookup c with
  | some letter => exact Or.inl ⟨letter, mem_of_lookup hshort, rfl⟩
  | none =>
    have hc := lookup_eq_none.mp hshort
    cases hplain : e.plain c with
    | true => exact Or.inr (Or.inl ⟨hc, rfl, rfl⟩)
    | false => exact Or.inr (Or.inr ⟨hc, rfl, rfl⟩)

/-- What stands as it is, is no backslash. -/
theorem Escaping.ne_backslash {c : Char} (h : c ∉ e.letters.map Prod.fst) : c ≠ '\\' := by
  rintro rfl
  exact h e.backslash

theorem Escaping.letter_ne_u {c l : Char} (h : (c, l) ∈ e.letters) : l ≠ 'u' := by
  rintro rfl
  exact e.letters_ne_u (List.mem_map_of_mem h)

/-- A letter stands for one character. -/
theorem Escaping.letter_inj {c d l : Char} (hc : (c, l) ∈ e.letters) (hd : (d, l) ∈ e.letters) :
    c = d := by
  have hsame := List.inj_on_of_nodup_map e.letters_differ hc hd rfl
  exact congrArg Prod.fst hsame

theorem Escaping.escape_reads : ReadsAs Eq e.escape Anything c := by
  intro d s t _ _ heq
  rcases e.escape_cases c with ⟨l, hc, hl⟩ | ⟨hc, hp, hl⟩ | ⟨hc, hp, hl⟩ <;>
    rcases e.escape_cases d with ⟨l', hd, hl'⟩ | ⟨hd, hp', hl'⟩ | ⟨hd, hp', hl'⟩ <;>
    rw [hl, hl'] at heq <;> simp only [List.cons_append, List.nil_append, List.cons.injEq] at heq
  · obtain ⟨-, rfl, hrest⟩ := heq
    exact ⟨Escaping.letter_inj hc hd, hrest⟩
  · exact absurd heq.1.symm (Escaping.ne_backslash hd)
  · exact absurd heq.2.1 (Escaping.letter_ne_u hc)
  · exact absurd heq.1 (Escaping.ne_backslash hc)
  · exact heq
  · exact absurd heq.1 (Escaping.ne_backslash hc)
  · exact absurd heq.2.1.symm (Escaping.letter_ne_u hd)
  · exact absurd heq.1.symm (Escaping.ne_backslash hd)
  · exact e.long_reads c d s t hc hp hd hp' heq.2.2

/-- No character between the quotes starts as the closing quote does. -/
theorem Escaping.escape_starts : ∃ d ds, e.escape c = d :: ds ∧ d ≠ '"' := by
  rcases e.escape_cases c with ⟨l, -, hl⟩ | ⟨hc, -, hl⟩ | ⟨-, -, hl⟩
  · exact ⟨_, _, hl, by decide⟩
  · refine ⟨_, _, hl, ?_⟩
    rintro rfl
    exact hc e.quote
  · exact ⟨_, _, hl, by decide⟩

/-- A quoted text is read back whatever stands behind it. -/
theorem Escaping.quoted_reads (s : List Char) : ReadsAs Eq e.quoted Anything s := by
  intro s' t t' _ _ heq
  unfold Escaping.quoted at heq
  rw [cons_append, cons_append, cons_append, cons_append] at heq
  have hlist : ReadsAs (List.Forall₂ Eq) (fun s => s.flatMap e.escape ++ ['"']) Anything s :=
    ReadsAs.list (fun c _ => e.escape_reads c) e.escape_starts
  obtain ⟨hsame, hrest⟩ := hlist s' t t' trivial trivial (List.cons.inj heq).2
  exact ⟨forall₂_eq_eq_eq ▸ hsame, hrest⟩

end Escapes
