/-
Code that panics, as functions into `Option`: a subtraction that would underflow and
an index that is out of range give `none`.

`Returns x P` says that a computation comes to an end without a panic, in a result with
the property `P`. It is put together along the computation: by `bind` from one step to
the next, by `times` and `each` around a loop, and from the operations on vectors below,
each of which says what its index has to be. `Yields x P` says only what a result is like,
where there is one.
-/
import Mathlib.Tactic.Common

set_option autoImplicit false

universe u

namespace Checked

open List

variable {α β : Type u}

/-- The computation does not panic, and its result has the property. -/
def Returns (x : Option α) (P : α → Prop) : Prop := ∃ a, x = some a ∧ P a

variable {P : α → Prop}

theorem Returns.pure {a : α} (h : P a) : Returns (pure a) P := ⟨a, rfl, h⟩

variable {x : Option α}

theorem Returns.mono {P Q : α → Prop} (h : Returns x P) (hpq : ∀ a, P a → Q a) :
    Returns x Q := by
  obtain ⟨a, hx, ha⟩ := h
  exact ⟨a, hx, hpq a ha⟩

variable {f : α → Option β}

theorem Returns.bind {Q : β → Prop}
    (h : Returns x P) (hf : ∀ a, P a → Returns (f a) Q) : Returns (x >>= f) Q := by
  obtain ⟨a, rfl, ha⟩ := h
  exact hf a ha

theorem Returns.ite {c : Prop} [Decidable c] {x y : Option α}
    (hx : c → Returns x P) (hy : ¬ c → Returns y P) : Returns (if c then x else y) P := by
  by_cases hc : c
  · rw [if_pos hc]
    exact hx hc
  · rw [if_neg hc]
    exact hy hc

/-- Whatever the computation comes to has the property, if it does not panic. -/
def Yields (x : Option α) (P : α → Prop) : Prop := ∀ a, x = some a → P a

theorem Yields.pure {a : α} (h : P a) : Yields (pure a) P := by
  intro b hb
  rw [← Option.some.inj hb]
  exact h

theorem Yields.mono {P Q : α → Prop} (h : Yields x P) (hpq : ∀ a, P a → Q a) :
    Yields x Q := fun a hx => hpq a (h a hx)

theorem Yields.bind {Q : β → Prop}
    (h : Yields x P) (hf : ∀ a, P a → Yields (f a) Q) : Yields (x >>= f) Q := by
  intro b hb
  obtain ⟨a, hx, hfa⟩ := Option.bind_eq_some_iff.mp hb
  exact hf a (h a hx) b hfa

/-- A step that is not asked about. -/
theorem Yields.skip {Q : β → Prop}
    (hf : ∀ a, Yields (f a) Q) : Yields (x >>= f) Q :=
  Yields.bind (P := fun _ => True) (fun _ _ => trivial) fun a _ => hf a

theorem Yields.ite {c : Prop} [Decidable c] {x y : Option α}
    (hx : c → Yields x P) (hy : ¬ c → Yields y P) : Yields (if c then x else y) P := by
  by_cases hc : c
  · rw [if_pos hc]
    exact hx hc
  · rw [if_neg hc]
    exact hy hc

/-- A computation that comes to an end, and what is known of its result. -/
theorem Returns.and_yields {P Q : α → Prop} (h : Returns x P) (hq : Yields x Q) :
    Returns x fun a => P a ∧ Q a := by
  obtain ⟨a, hx, ha⟩ := h
  exact ⟨a, hx, ha, hq a hx⟩

/-! ## Loops -/

/-- `for _ in 0..n`. -/
def times (n : ℕ) (f : α → Option α) (a : α) : Option α :=
  match n with
  | 0 => some a
  | n + 1 => f a >>= times n f

/-- A loop keeps what one turn keeps. -/
theorem Returns.times {f : α → Option α} (hf : ∀ a, P a → Returns (f a) P)
    (n : ℕ) {a : α} (h : P a) : Returns (times n f a) P := by
  induction n generalizing a with
  | zero => exact Returns.pure h
  | succ n ih => exact (hf a h).bind fun b hb => ih hb

/-- A loop over the elements of a list keeps what every turn keeps. -/
theorem Returns.each {γ : Type*} {f : α → γ → Option α} {l : List γ}
    (hf : ∀ a, P a → ∀ c ∈ l, Returns (f a c) P) {a : α} (h : P a) :
    Returns (l.foldlM f a) P := by
  induction l generalizing a with
  | nil => exact Returns.pure h
  | cons c l ih =>
    rw [foldlM_cons]
    refine (hf a h c (mem_cons_self ..)).bind fun b hb => ?_
    exact ih (fun a ha c hc => hf a ha c (mem_cons_of_mem _ hc)) hb

theorem Yields.times {f : α → Option α} (hf : ∀ a, P a → Yields (f a) P)
    (n : ℕ) {a : α} (h : P a) : Yields (times n f a) P := by
  induction n generalizing a with
  | zero => exact Yields.pure h
  | succ n ih => exact Yields.bind (hf a h) fun b hb => ih hb

theorem Yields.each {γ : Type*} {f : α → γ → Option α} {l : List γ}
    (hf : ∀ a, P a → ∀ c ∈ l, Yields (f a c) P) {a : α} (h : P a) :
    Yields (l.foldlM f a) P := by
  induction l generalizing a with
  | nil => exact Yields.pure h
  | cons c l ih =>
    rw [foldlM_cons]
    refine Yields.bind (hf a h c (mem_cons_self ..)) fun b hb => ?_
    exact ih (fun a ha c hc => hf a ha c (mem_cons_of_mem _ hc)) hb

/-! ## Numbers -/

/-- `a - b` on unsigned integers. -/
def sub (a b : ℕ) : Option ℕ := if b ≤ a then some (a - b) else none

theorem returns_sub {a b : ℕ} (h : b ≤ a) : Returns (sub a b) fun c => c = a - b :=
  ⟨a - b, if_pos h, rfl⟩

/-! ## Vectors -/

variable (xs : List α) (i : ℕ)

/-- `xs[i] = a`. -/
def set_at (a : α) : Option (List α) :=
  if i < xs.length then some (xs.set i a) else none

/-- `Vec::remove`, with the vector that is left. -/
def remove_at : Option (α × List α) :=
  xs[i]?.map fun a => (a, xs.eraseIdx i)

/-- `Vec::insert`. -/
def insert_at (a : α) : Option (List α) :=
  if i ≤ xs.length then some (xs.insertIdx i a) else none

/-- `Vec::split_off`: what is left and what was split off. -/
def split_off : Option (List α × List α) :=
  if i ≤ xs.length then some (xs.take i, xs.drop i) else none

/-- `Vec::drain(a..b)`, with the vector that is left. -/
def drain (a b : ℕ) : Option (List α) :=
  if a ≤ b ∧ b ≤ xs.length then some (xs.take a ++ xs.drop b) else none

/-- `&xs[a..b]`. -/
def slice (a b : ℕ) : Option (List α) :=
  if a ≤ b ∧ b ≤ xs.length then some ((xs.take b).drop a) else none

/-- `Vec::resize_with`. -/
def resize (n : ℕ) (a : α) : List α :=
  xs.take n ++ List.replicate (n - xs.length) a

/-- A vector of a length whose elements all have a property. -/
def Sized (P : α → Prop) (n : ℕ) (xs : List α) : Prop := xs.length = n ∧ ∀ a ∈ xs, P a

section
variable {P : α → Prop} {n : ℕ} {xs : List α} {a : α}

variable (h : Sized P n xs)
include h

variable {i : ℕ}

theorem Sized.index (hi : i < n) : Returns xs[i]? P := by
  have hlen : i < xs.length := by rw [h.1]; exact hi
  exact ⟨xs[i], getElem?_eq_getElem hlen, h.2 _ (getElem_mem hlen)⟩

theorem Sized.set (ha : P a) (i : ℕ) : Sized P n (xs.set i a) := by
  refine ⟨by rw [length_set, h.1], fun b hb => ?_⟩
  rcases mem_or_eq_of_mem_set hb with hb | rfl
  · exact h.2 b hb
  · exact ha

theorem Sized.set_at (ha : P a) (hi : i < n) :
    Returns (set_at xs i a) (Sized P n) :=
  ⟨_, if_pos (by rw [h.1]; exact hi), h.set ha i⟩

theorem Sized.remove_at (hi : i < n) :
    Returns (remove_at xs i) fun r => P r.1 ∧ Sized P (n - 1) r.2 := by
  have hlen : i < xs.length := by rw [h.1]; exact hi
  refine ⟨(xs[i], xs.eraseIdx i), ?_, h.2 _ (getElem_mem hlen), ?_, fun b hb => ?_⟩
  · unfold Checked.remove_at
    rw [getElem?_eq_getElem hlen]
    rfl
  · rw [length_eraseIdx_of_lt hlen, h.1]
  · exact h.2 b (mem_of_mem_eraseIdx hb)

theorem Sized.insert_at (ha : P a) (hi : i ≤ n) :
    Returns (insert_at xs i a) (Sized P (n + 1)) := by
  have hlen : i ≤ xs.length := by rw [h.1]; exact hi
  refine ⟨_, if_pos hlen, ?_, fun b hb => ?_⟩
  · rw [length_insertIdx_of_le_length hlen, h.1]
  · rcases (mem_insertIdx hlen).mp hb with rfl | hb
    · exact ha
    · exact h.2 b hb

omit h in
theorem Sized.replicate (ha : P a) (n : ℕ) : Sized P n (List.replicate n a) :=
  ⟨length_replicate, fun _ hb => by rw [eq_of_mem_replicate hb]; exact ha⟩

theorem Sized.map {Q : β → Prop} {f : α → β} (hf : ∀ a, P a → Q (f a)) :
    Sized Q n (xs.map f) := by
  refine ⟨by rw [length_map, h.1], fun b hb => ?_⟩
  obtain ⟨a, ha, rfl⟩ := List.mem_map.mp hb
  exact hf a (h.2 a ha)

theorem Sized.append {ys : List α} {m : ℕ} (h' : Sized P m ys) :
    Sized P (n + m) (xs ++ ys) := by
  refine ⟨by rw [length_append, h.1, h'.1], fun b hb => ?_⟩
  rcases mem_append.mp hb with hb | hb
  · exact h.2 b hb
  · exact h'.2 b hb

theorem Sized.take (hi : i ≤ n) : Sized P i (xs.take i) :=
  ⟨by rw [length_take, h.1]; omega, fun b hb => h.2 b (mem_of_mem_take hb)⟩

theorem Sized.drop (i : ℕ) : Sized P (n - i) (xs.drop i) :=
  ⟨by rw [length_drop, h.1], fun b hb => h.2 b (mem_of_mem_drop hb)⟩

theorem Sized.split_off (hi : i ≤ n) :
    Returns (split_off xs i) fun r => Sized P i r.1 ∧ Sized P (n - i) r.2 :=
  ⟨_, if_pos (by rw [h.1]; exact hi), h.take hi, h.drop i⟩

theorem Sized.drain {i j : ℕ} (hij : i ≤ j) (hj : j ≤ n) :
    Returns (drain xs i j) (Sized P (i + (n - j))) :=
  ⟨_, if_pos ⟨hij, by rw [h.1]; exact hj⟩, (h.take (Nat.le_trans hij hj)).append (h.drop j)⟩

theorem Sized.slice {i j : ℕ} (hij : i ≤ j) (hj : j ≤ n) :
    Returns (slice xs i j) (Sized P (j - i)) :=
  ⟨_, if_pos ⟨hij, by rw [h.1]; exact hj⟩, (h.take hj).drop i⟩

theorem Sized.resize (ha : P a) {m : ℕ} (hm : n ≤ m) :
    Sized P m (resize xs m a) := by
  unfold Checked.resize
  have htake : xs.take m = xs := take_of_length_le (by rw [h.1]; exact hm)
  rw [htake, h.1]
  have happend := h.append (Sized.replicate ha (m - n))
  rw [Nat.add_sub_cancel' hm] at happend
  exact happend

end

end Checked
