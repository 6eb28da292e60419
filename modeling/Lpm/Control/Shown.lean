/-
Which surface holds a terminal, as one machine keeps it. `control.rs`.

A terminal that no surface shows has no entry, and the empty `Shown` stands for that. Surfaces
are told apart by kind and id and never by label, so the lemmas below speak of keys: who shows
the terminal behind an operation, and who its owner is.
-/
import Lpm.Lib.RustText

set_option autoImplicit false

open RustText

namespace Lpm.Control

open List Option

inductive Kind where
  | window
  | mobile
  /-- A paired Mac, on the machine that hosts the terminal. -/
  | peer
  /-- The machine or phone that holds the terminal, on a Mac it is not. -/
  | away
  deriving DecidableEq

abbrev Key : Type := Kind × Str

structure Owner where
  kind : Kind
  id : Str
  label : Str
  deriving DecidableEq

def Owner.key (o : Owner) : Key := (o.kind, o.id)

/-- Two surfaces are the same regardless of label. -/
def Owner.same (a b : Owner) : Bool := a.kind = b.kind && a.id = b.id

def owners_eq : Option Owner → Option Owner → Bool
  | some x, some y => x.same y
  | none, none => true
  | _, _ => false

/-- The surfaces showing one terminal, the owner at the front. -/
structure Shown where
  presenters : List Owner := []
  /-- Who holds it elsewhere, and outranks every presenter here. -/
  away : Option Owner := none
  deriving DecidableEq

inductive Op where
  | present
  | claim
  | unpresent
  deriving DecidableEq

namespace Shown

variable (s : Shown)

def owner : Option Owner :=
  match s.presenters with
  | [] => none
  | first :: _ => some (s.away.getD first)

/-! ## The operations: what is shown then, its owner, and whether that is another one -/

variable (who : Owner)

def present : Shown × Owner × Bool :=
  let shown := if s.presenters.any (·.same who) then s else { s with presenters := s.presenters ++ [who] }
  let new := shown.owner.getD who
  (shown, new, !owners_eq s.owner (some new))

def claim : Shown × Owner × Bool :=
  ({ presenters := who :: s.presenters.filter fun o => !o.same who, away := none }, who,
    !s.owner.any (·.same who))

def unpresent : Shown × Option Owner × Bool :=
  let shown := { s with presenters := s.presenters.filter fun o => !o.same who }
  let new := shown.owner
  -- with the last presenter the entry goes, and what is held away with it
  (if shown.presenters = [] then {} else shown, new, !owners_eq s.owner new)

def hold_away (away : Option Owner) : Shown × Option Owner × Bool :=
  if s.presenters = [] then (s, none, false)
  else
    let shown := { s with away }
    (shown, shown.owner, !owners_eq s.owner shown.owner)

/-- One of the three operations of a surface. -/
def apply (op : Op) (who : Owner) : Shown × Option Owner × Bool :=
  match op with
  | .present => let (shown, owner, changed) := s.present who; (shown, some owner, changed)
  | .claim => let (shown, owner, changed) := s.claim who; (shown, some owner, changed)
  | .unpresent => s.unpresent who

/-! ## Keys -/

/-- Who shows it. -/
def keys : List Key := s.presenters.map Owner.key

/-- Who the owner is. -/
def holder : Option Key := s.owner.map Owner.key

end Shown

theorem same_iff {a b : Owner} : a.same b = true ↔ a.key = b.key := by
  rw [Owner.same, Bool.and_eq_true, decide_eq_true_iff, decide_eq_true_iff, Owner.key, Owner.key,
    Prod.mk.injEq]

theorem owners_eq_iff {a b : Option Owner} : owners_eq a b = true ↔ a.map Owner.key = b.map Owner.key := by
  cases a <;> cases b <;> simp [owners_eq, same_iff]

/-- The flag of a change, in keys. -/
theorem changed_iff {a b : Option Owner} :
    (!owners_eq a b) = true ↔ a.map Owner.key ≠ b.map Owner.key := by
  rw [Bool.not_eq_true', ← Bool.not_eq_true, owners_eq_iff]

namespace Shown

variable {s : Shown} {who o : Owner} {k : Key} {away : Option Owner} {op : Op}

theorem owner_eq : s.owner = s.presenters.head?.map fun first => s.away.getD first := by
  unfold owner
  cases s.presenters <;> rfl

theorem owner_eq_none : s.owner = none ↔ s.presenters = [] := by
  rw [owner_eq, map_eq_none_iff, head?_eq_none_iff]

theorem holder_eq : s.holder = s.keys.head?.map fun first => (s.away.map Owner.key).getD first := by
  rw [holder, owner_eq, keys, head?_map, Option.map_map, Option.map_map]
  refine congrFun (congrArg _ (funext fun first => ?_)) _
  cases s.away <;> rfl

theorem keys_eq_nil : s.keys = [] ↔ s.presenters = [] := map_eq_nil_iff

theorem keys_filter {l : List Owner} :
    (l.filter fun o => !o.same who).map Owner.key = (l.map Owner.key).filter (· ≠ who.key) := by
  rw [List.filter_map]
  refine congrArg _ (filter_congr fun o _ => ?_)
  by_cases h : o.key = who.key
  · rw [same_iff.mpr h]
    simp [h]
  · rw [Bool.eq_false_iff.mpr fun hs => h (same_iff.mp hs)]
    simp [h]

/-! ### Who shows it behind each operation -/

theorem any_same : s.presenters.any (·.same who) = true ↔ who.key ∈ s.keys := by
  rw [List.any_eq_true, keys, List.mem_map]
  simp only [same_iff]

theorem present_keys : (s.present who).1.keys = if who.key ∈ s.keys then s.keys else s.keys ++ [who.key] := by
  rw [present]
  by_cases h : who.key ∈ s.keys
  · rw [if_pos (any_same.mpr h), if_pos h]
  · rw [if_neg fun ha => h (any_same.mp ha), if_neg h, keys, map_append]
    rfl

theorem claim_keys : (s.claim who).1.keys = who.key :: s.keys.filter (· ≠ who.key) := by
  rw [claim, keys, map_cons, keys_filter, keys]

theorem unpresent_keys : (s.unpresent who).1.keys = s.keys.filter (· ≠ who.key) := by
  rw [unpresent, keys]
  dsimp only
  split
  next h =>
    rw [keys, ← keys_filter, h]
  next => exact keys_filter

theorem hold_away_keys : (s.hold_away away).1.keys = s.keys := by
  rw [hold_away]
  split <;> rfl

theorem mem_apply_keys : k ∈ (s.apply op who).1.keys ↔
    k ≠ who.key ∧ k ∈ s.keys ∨ op ≠ .unpresent ∧ k = who.key := by
  cases op with
  | present =>
    change k ∈ (s.present who).1.keys ↔ _
    rw [present_keys]
    by_cases hk : k = who.key <;> split <;> simp_all
  | claim =>
    change k ∈ (s.claim who).1.keys ↔ _
    rw [claim_keys]
    by_cases hk : k = who.key <;> simp [hk]
  | unpresent =>
    change k ∈ (s.unpresent who).1.keys ↔ _
    rw [unpresent_keys, mem_filter]
    simp [and_comm]

/-! ### The owner behind each operation -/

theorem present_holder_of_some (h : s.keys ≠ []) : (s.present who).1.holder = s.holder := by
  rw [present]
  dsimp only
  split
  · rfl
  · obtain ⟨first, rest, hkeys⟩ := exists_cons_of_ne_nil h
    rw [holder_eq, holder_eq, keys, map_append, ← keys, hkeys]
    rfl

theorem holder_eq_none : s.holder = none ↔ s.keys = [] := by
  rw [holder, map_eq_none_iff, owner_eq_none, keys_eq_nil]

theorem unpresent_away (hstay : (s.unpresent who).1.keys ≠ []) : (s.unpresent who).1.away = s.away := by
  rw [unpresent] at hstay ⊢
  dsimp only at hstay ⊢
  split
  next h =>
    rw [if_pos h] at hstay
    exact absurd rfl hstay
  next => rfl

/-- Only the owner's leaving makes another one of those who stay the owner. -/
theorem unpresent_holder (hstay : (s.unpresent who).1.keys ≠ []) (hother : s.holder ≠ some who.key) :
    (s.unpresent who).1.holder = s.holder := by
  have haway := unpresent_away hstay
  rw [unpresent_keys] at hstay
  have hshown : s.keys ≠ [] := fun h => hstay (by rw [h]; rfl)
  obtain ⟨first, rest, hkeys⟩ := exists_cons_of_ne_nil hshown
  rw [holder_eq, hkeys] at hother
  rw [holder_eq, holder_eq, haway, unpresent_keys, hkeys]
  cases ha : s.away with
  | some a =>
    rw [hkeys] at hstay
    obtain ⟨first', rest', hkeys'⟩ := exists_cons_of_ne_nil hstay
    rw [hkeys']
    rfl
  | none =>
    rw [ha] at hother
    have hne : first ≠ who.key := fun he => hother (congrArg some he)
    rw [filter_cons_of_pos (by simpa using hne)]
    rfl

/-- The operations of the surfaces here put nothing away. -/
theorem apply_away : (s.apply op who).1.away = none ∨ (s.apply op who).1.away = s.away := by
  cases op with
  | present =>
    change (s.present who).1.away = none ∨ (s.present who).1.away = s.away
    rw [present]
    dsimp only
    split <;> exact Or.inr rfl
  | claim => exact Or.inl rfl
  | unpresent =>
    change (s.unpresent who).1.away = none ∨ (s.unpresent who).1.away = s.away
    rw [unpresent]
    dsimp only
    split
    · exact Or.inl rfl
    · exact Or.inr rfl

/-- An owner gives way to another when that one claims or when it leaves. -/
theorem apply_gives_way {k' : Key} (hk : s.holder = some k) (hk' : (s.apply op who).1.holder = some k')
    (hne : k ≠ k') : op = .claim ∨ op = .unpresent ∧ who.key = k := by
  cases op with
  | present =>
    have hkeys : s.keys ≠ [] := fun hn => by
      rw [holder_eq_none.mpr hn] at hk
      exact nomatch hk
    have hsame : (s.present who).1.holder = s.holder := present_holder_of_some hkeys
    exact absurd (some.inj (hk.symm.trans (hsame.symm.trans hk'))) hne
  | claim => exact Or.inl rfl
  | unpresent =>
    refine Or.inr ⟨rfl, ?_⟩
    by_contra hother
    have hstay : (s.unpresent who).1.keys ≠ [] := fun hn => nomatch (holder_eq_none.mpr hn).symm.trans hk'
    have hnot : s.holder ≠ some who.key := fun he => hother (some.inj (hk.symm.trans he)).symm
    have hsame : (s.unpresent who).1.holder = s.holder := unpresent_holder hstay hnot
    exact hne (some.inj (hk.symm.trans (hsame.symm.trans hk')))

/-- The owner that is told is the one there is. -/
theorem apply_owner : (s.apply op who).2.1.map Owner.key = (s.apply op who).1.holder := by
  cases op with
  | present =>
    change some (s.present who).2.1.key = (s.present who).1.holder
    have hsome : (s.present who).1.owner ≠ none := fun h => by
      have hkeys := keys_eq_nil.mpr (owner_eq_none.mp h)
      rw [present_keys] at hkeys
      split at hkeys
      next hmem => exact absurd (hkeys ▸ hmem) not_mem_nil
      next => exact cons_ne_nil _ _ (append_eq_nil_iff.mp hkeys).2
    obtain ⟨o, ho⟩ := ne_none_iff_exists'.mp hsome
    rw [holder, ho]
    rw [present] at ho ⊢
    dsimp only at ho ⊢
    rw [ho]
    rfl
  | claim => rfl
  | unpresent =>
    change (s.unpresent who).2.1.map Owner.key = (s.unpresent who).1.holder
    rw [unpresent]
    dsimp only
    split
    next h =>
      rw [owner_eq_none.mpr h]
      rfl
    next => rfl

theorem hold_away_owner : (s.hold_away away).2.1.map Owner.key = (s.hold_away away).1.holder := by
  rw [hold_away]
  split
  next h => rw [holder, owner_eq_none.mpr h]
  next => rfl

/-- An operation's flag says exactly whether the owner changed. -/
theorem apply_changed : (s.apply op who).2.2 = true ↔ s.holder ≠ (s.apply op who).1.holder := by
  rw [← apply_owner]
  cases op with
  | present => exact changed_iff
  | claim =>
    change (!s.owner.any (·.same who)) = true ↔ s.owner.map Owner.key ≠ some who.key
    cases s.owner with
    | none => simp
    | some o => rw [any_some, Bool.not_eq_true', ← Bool.not_eq_true, same_iff]; simp
  | unpresent => exact changed_iff

theorem unpresent_owner : (s.unpresent who).2.1.map Owner.key = (s.unpresent who).1.holder :=
  @apply_owner s who .unpresent

theorem unpresent_changed : (s.unpresent who).2.2 = true ↔ s.holder ≠ (s.unpresent who).1.holder :=
  @apply_changed s who .unpresent

theorem hold_away_changed : (s.hold_away away).2.2 = true ↔ s.holder ≠ (s.hold_away away).1.holder := by
  rw [← hold_away_owner, hold_away]
  split
  next h => rw [holder, owner_eq_none.mpr h]; simp
  next => exact changed_iff

end Shown

end Lpm.Control
