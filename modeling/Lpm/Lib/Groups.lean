/-
Lists kept under names, as Rust's `HashMap<K, Vec<V>>` keeps them where a name is there as
long as it has something to name.

A value is found by looking through all the lists, so the order of the names is left open: the
lemmas below say what an operation does to the list under a name, and never where among the
others that list stands.
-/
import Mathlib.Data.List.Nodup

set_option autoImplicit false

/-- Each name with its list. -/
abbrev Groups (κ α : Type*) := List (κ × List α)

namespace Groups

open List Option

variable {κ α : Type*} [DecidableEq κ] {gs gs' : Groups κ α} {k k' : κ} {a b : α} {p : α → Bool}

/-- The list under a name: none where the name is not there. -/
def get : Groups κ α → κ → List α
  | [], _ => []
  | (k', as) :: rest, k => if k' = k then as else get rest k

def has (gs : Groups κ α) (k : κ) : Bool := gs.any fun g => g.1 = k

/-- `entry(k).or_default().push(a)`. -/
def push : Groups κ α → κ → α → Groups κ α
  | [], k, a => [(k, [a])]
  | (k', as) :: rest, k, a => if k' = k then (k', as ++ [a]) :: rest else (k', as) :: push rest k a

def remove (gs : Groups κ α) (k : κ) : Groups κ α := gs.filter fun g => g.1 ≠ k

/-- Everything there is, list by list. -/
def members (gs : Groups κ α) : List α := gs.flatMap Prod.snd

def find (gs : Groups κ α) (p : α → Bool) : Option α := gs.members.find? p

/-- What meets `p` goes, and a name with the last of its list. -/
def drop (gs : Groups κ α) (p : α → Bool) : Groups κ α :=
  (gs.map fun g => (g.1, g.2.filter fun a => !p a)).filter fun g => !g.2.isEmpty

/-- The first of a list that meets `p` gives its place to `b`. -/
def replace_in (p : α → Bool) (b : α) : List α → Option (List α)
  | [] => none
  | a :: as => if p a then some (b :: as) else (replace_in p b as).map (a :: ·)

def replace (p : α → Bool) (b : α) : Groups κ α → Option (Groups κ α)
  | [] => none
  | (k, as) :: rest =>
    match replace_in p b as with
    | some as' => some ((k, as') :: rest)
    | none => (replace p b rest).map ((k, as) :: ·)

/-- No name is there twice or without anything under it. -/
structure Wf (gs : Groups κ α) : Prop where
  nodup : (gs.map Prod.fst).Nodup
  full : ∀ g ∈ gs, g.2 ≠ []

omit [DecidableEq κ] in
theorem wf_nil : Wf ([] : Groups κ α) := ⟨nodup_nil, fun _ h => absurd h not_mem_nil⟩

variable {g : κ × List α}

omit [DecidableEq κ] in
theorem Wf.tail (h : Wf (g :: gs)) : Wf gs :=
  ⟨(nodup_cons.mp h.nodup).2, fun g' hg' => h.full g' (mem_cons_of_mem _ hg')⟩

theorem get_cons : get (g :: gs) k = if g.1 = k then g.2 else get gs k := rfl

theorem get_of_not_mem (h : k ∉ gs.map Prod.fst) : get gs k = [] := by
  induction gs with
  | nil => rfl
  | cons g gs ih =>
    have hne : g.1 ≠ k := fun he => h (he ▸ mem_cons_self)
    rw [get_cons, if_neg hne]
    exact ih fun hk => h (mem_cons_of_mem _ hk)

theorem get_of_mem (h : (gs.map Prod.fst).Nodup) (hg : g ∈ gs) :
    get gs g.1 = g.2 := by
  induction gs with
  | nil => exact absurd hg not_mem_nil
  | cons g' gs ih =>
    obtain ⟨hnew, hrest⟩ := nodup_cons.mp h
    rcases mem_cons.mp hg with rfl | hg
    · rw [get_cons, if_pos rfl]
    · have hne : g'.1 ≠ g.1 := fun he => hnew (he ▸ List.mem_map_of_mem hg)
      rw [get_cons, if_neg hne]
      exact ih hrest hg

theorem mem_of_get (h : a ∈ get gs k) : ∃ g ∈ gs, g.1 = k ∧ a ∈ g.2 := by
  induction gs with
  | nil => exact absurd h not_mem_nil
  | cons g gs ih =>
    rw [get_cons] at h
    by_cases hk : g.1 = k
    · rw [if_pos hk] at h
      exact ⟨g, mem_cons_self, hk, h⟩
    · rw [if_neg hk] at h
      obtain ⟨g', hg', hrest⟩ := ih h
      exact ⟨g', mem_cons_of_mem _ hg', hrest⟩

/-- Everything there is, is under some name. -/
theorem mem_members (h : Wf gs) : a ∈ gs.members ↔ ∃ k, a ∈ get gs k := by
  constructor
  · intro ha
    obtain ⟨g, hg, hag⟩ := mem_flatMap.mp ha
    exact ⟨g.1, (get_of_mem h.nodup hg).symm ▸ hag⟩
  · rintro ⟨k, hk⟩
    obtain ⟨g, hg, -, hag⟩ := mem_of_get hk
    exact mem_flatMap.mpr ⟨g, hg, hag⟩

theorem find_eq_some (h : Wf gs) (hfind : gs.find p = some a) : p a = true ∧ ∃ k, a ∈ get gs k :=
  ⟨find?_some hfind, (mem_members h).mp (mem_of_find?_eq_some hfind)⟩

/-! ## One more -/

theorem get_push : get (push gs k a) k' = if k = k' then get gs k ++ [a] else get gs k' := by
  induction gs with
  | nil =>
    rw [push, get_cons]
    rfl
  | cons g gs ih =>
    rw [push]
    by_cases hk : g.1 = k
    · subst hk
      rw [if_pos rfl, get_cons, get_cons, get_cons, if_pos rfl]
      split <;> rfl
    · rw [if_neg hk, get_cons, get_cons, get_cons, if_neg hk, ih]
      by_cases hk' : g.1 = k'
      · have hne : k ≠ k' := fun he => hk (hk'.trans he.symm)
        rw [if_pos hk', if_pos hk', if_neg hne]
      · rw [if_neg hk', if_neg hk']

theorem mem_push (h : g ∈ push gs k a) : g ∈ gs ∨ g.1 = k ∧ a ∈ g.2 := by
  induction gs with
  | nil =>
    rw [push, mem_singleton] at h
    exact Or.inr (h ▸ ⟨rfl, mem_singleton_self a⟩)
  | cons g' gs ih =>
    rw [push] at h
    split at h
    next hk =>
      rcases mem_cons.mp h with rfl | h
      · exact Or.inr ⟨hk, mem_append_right _ (mem_singleton_self a)⟩
      · exact Or.inl (mem_cons_of_mem _ h)
    next =>
      rcases mem_cons.mp h with rfl | h
      · exact Or.inl mem_cons_self
      · exact (ih h).imp_left (mem_cons_of_mem _)

theorem Wf.push (h : Wf gs) (k : κ) (a : α) : Wf (push gs k a) := by
  refine ⟨?_, fun g hg => ?_⟩
  · have hnodup := h.nodup
    clear h
    induction gs with
    | nil => exact nodup_singleton k
    | cons g gs ih =>
      obtain ⟨hnew, hrest⟩ := nodup_cons.mp hnodup
      rw [Groups.push]
      split
      next => exact hnodup
      next hk =>
        refine nodup_cons.mpr ⟨fun hmem => ?_, ih hrest⟩
        obtain ⟨g', hg', he⟩ := List.mem_map.mp hmem
        rcases mem_push hg' with hold | ⟨hk', -⟩
        · exact hnew (he ▸ List.mem_map_of_mem hold)
        · exact hk (he.symm.trans hk')
  · rcases mem_push hg with hold | ⟨-, ha⟩
    · exact h.full g hold
    · exact ne_nil_of_mem ha

/-! ## Less -/

theorem get_remove : get (remove gs k) k' = if k = k' then [] else get gs k' := by
  induction gs with
  | nil =>
    rw [show remove [] k = ([] : Groups κ α) from rfl]
    split <;> rfl
  | cons g gs ih =>
    rw [remove] at ih ⊢
    by_cases hk : g.1 = k
    · rw [filter_cons_of_neg (by simpa using hk), ih, get_cons]
      split
      next => rfl
      next hne => rw [if_neg fun he => hne (hk.symm.trans he)]
    · rw [filter_cons_of_pos (by simpa using hk), get_cons, get_cons, ih]
      by_cases hk' : g.1 = k'
      · have hne : k ≠ k' := fun he => hk (hk'.trans he.symm)
        rw [if_pos hk', if_pos hk', if_neg hne]
      · rw [if_neg hk', if_neg hk']

theorem Wf.remove (h : Wf gs) (k : κ) : Wf (gs.remove k) :=
  ⟨h.nodup.sublist (filter_sublist.map _), fun g hg => h.full g (mem_of_mem_filter hg)⟩

theorem get_drop (h : Wf gs) : get (gs.drop p) k = (get gs k).filter fun a => !p a := by
  induction gs with
  | nil => rfl
  | cons g gs ih =>
    have hrest := ih h.tail
    rw [drop] at hrest ⊢
    rw [map_cons, get_cons]
    by_cases hempty : (g.2.filter fun a => !p a).isEmpty = true
    · rw [filter_cons_of_neg (by simpa using hempty), hrest]
      split
      next hk =>
        have hnot : k ∉ gs.map Prod.fst := hk ▸ (nodup_cons.mp h.nodup).1
        rw [get_of_not_mem hnot, List.isEmpty_iff.mp hempty]
        rfl
      next => rfl
    · rw [filter_cons_of_pos (by simpa using hempty), get_cons]
      split
      next => rfl
      next => exact hrest

omit [DecidableEq κ] in
theorem Wf.drop (h : Wf gs) (p : α → Bool) : Wf (gs.drop p) := by
  refine ⟨?_, fun g hg => ?_⟩
  · have hkeys : (gs.map fun g => (g.1, g.2.filter fun a => !p a)).map Prod.fst = gs.map Prod.fst := by
      rw [List.map_map]
      rfl
    exact (hkeys ▸ h.nodup).sublist (filter_sublist.map _)
  · have hfull := of_mem_filter hg
    exact fun he => by rw [he] at hfull; exact nomatch hfull

/-! ## One in the place of another -/

theorem replace_in_eq_some {as as' : List α} (h : replace_in p b as = some as') :
    ∃ before a after, as = before ++ a :: after ∧ p a = true ∧ as' = before ++ b :: after := by
  induction as generalizing as' with
  | nil => exact nomatch h
  | cons c as ih =>
    rw [replace_in] at h
    split at h
    next hc =>
      cases h
      exact ⟨[], c, as, rfl, hc, rfl⟩
    next =>
      obtain ⟨as'', hrest, rfl⟩ := map_eq_some_iff.mp h
      obtain ⟨before, a, after, rfl, ha, rfl⟩ := ih hrest
      exact ⟨c :: before, a, after, rfl, ha, rfl⟩

omit [DecidableEq κ] in
theorem replace_keys (h : replace p b gs = some gs') : gs'.map Prod.fst = gs.map Prod.fst := by
  induction gs generalizing gs' with
  | nil => exact nomatch h
  | cons g gs ih =>
    rw [replace] at h
    split at h
    next => exact some.inj h ▸ rfl
    next =>
      obtain ⟨rest, hrest, rfl⟩ := map_eq_some_iff.mp h
      rw [map_cons, map_cons, ih hrest]

/-- One list has the new value in the place of one that met `p`, and the others are as they
were. -/
theorem replace_eq_some (hwf : Wf gs) (h : replace p b gs = some gs') :
    ∃ k before a after, get gs k = before ++ a :: after ∧ p a = true ∧
      ∀ k', get gs' k' = if k = k' then before ++ b :: after else get gs k' := by
  induction gs generalizing gs' with
  | nil => exact nomatch h
  | cons g gs ih =>
    have hkeys := replace_keys h
    rw [replace] at h
    split at h
    next as' hin =>
      cases h
      obtain ⟨before, a, after, has, ha, rfl⟩ := replace_in_eq_some hin
      refine ⟨g.1, before, a, after, ?_, ha, fun k' => ?_⟩
      · rw [get_cons, if_pos rfl]
        exact has
      · rw [get_cons, get_cons]
        split <;> rfl
    next =>
      obtain ⟨rest, hrest, rfl⟩ := map_eq_some_iff.mp h
      obtain ⟨k, before, a, after, hget, ha, hothers⟩ := ih hwf.tail hrest
      have hne : g.1 ≠ k := fun he => by
        rw [← he, get_of_not_mem (nodup_cons.mp hwf.nodup).1] at hget
        exact cons_ne_nil _ _ (append_eq_nil_iff.mp hget.symm).2
      refine ⟨k, before, a, after, ?_, ha, fun k' => ?_⟩
      · rw [get_cons, if_neg hne]
        exact hget
      · rw [get_cons, get_cons, hothers]
        by_cases hk : g.1 = k'
        · have hne' : k ≠ k' := fun he => hne (hk.trans he.symm)
          rw [if_pos hk, if_pos hk, if_neg hne']
        · rw [if_neg hk, if_neg hk]

theorem Wf.replace (hwf : Wf gs) (h : Groups.replace p b gs = some gs') : Wf gs' := by
  have hkeys := replace_keys h
  have hnodup : (gs'.map Prod.fst).Nodup := hkeys ▸ hwf.nodup
  refine ⟨hnodup, fun g hg hempty => ?_⟩
  obtain ⟨k, before, a, after, hget, -, hothers⟩ := replace_eq_some hwf h
  have hg' := get_of_mem hnodup hg
  rw [hempty, hothers] at hg'
  split at hg'
  next => exact cons_ne_nil _ _ (append_eq_nil_iff.mp hg').2
  next =>
    obtain ⟨g0, hg0, he⟩ := List.mem_map.mp (hkeys ▸ List.mem_map_of_mem (f := Prod.fst) hg)
    rw [← he, get_of_mem hwf.nodup hg0] at hg'
    exact hwf.full g0 hg0 hg'

/-- What is listed name by name, with every name once, is what there was. -/
theorem flatMap_filter_perm {key : α → κ} {ks : List κ} {as : List α}
    (hks : ks.Nodup) (h : ∀ a ∈ as, key a ∈ ks) :
    (ks.flatMap fun k => as.filter fun a => key a = k).Perm as := by
  induction ks generalizing as with
  | nil =>
    cases as with
    | nil => exact List.Perm.refl _
    | cons a as => exact absurd (h a mem_cons_self) not_mem_nil
  | cons k ks ih =>
    obtain ⟨hk, hks⟩ := nodup_cons.mp hks
    have hrest : ∀ a ∈ as.filter (fun a => key a ≠ k), key a ∈ ks := by
      intro a ha
      rw [mem_filter, decide_eq_true_eq] at ha
      exact mem_of_ne_of_mem ha.2 (h a ha.1)
    -- the names left find in the rest what they find in all of it
    have hsame : (ks.flatMap fun k' => (as.filter fun a => key a ≠ k).filter fun a => key a = k')
        = ks.flatMap fun k' => as.filter fun a => key a = k' := by
      refine flatMap_congr fun k' hk' => ?_
      rw [List.filter_filter]
      refine filter_congr fun a _ => ?_
      rw [Bool.and_eq_left_iff_imp, decide_eq_true_eq, decide_eq_true_eq]
      rintro rfl heq
      exact hk (heq ▸ hk')
    have hsplit : (as.filter (fun a => key a = k) ++ as.filter fun a => !decide (key a = k)).Perm as :=
      filter_append_perm _ as
    rw [flatMap_cons]
    rw [← hsame]
    refine ((ih hks hrest).append_left _).trans ?_
    simpa using hsplit

end Groups
