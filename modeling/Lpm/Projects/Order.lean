/-
The order projects are listed in: `apply_project_order` and `group_duplicates_after_parents` of
`config.rs`.

The names of the saved order come first, then the rest as the file system has them, and then
every duplicate moves behind its parent. A duplicate is put out when its parent is, and only a
project that is no duplicate itself is put out for its own sake: so a duplicate of a duplicate
is never put out (`Flat` is what keeps it from happening).
-/
import Lpm.Lib.Distinct
import Lpm.Lib.Groups
import Lpm.Lib.Keyed

set_option autoImplicit false

namespace Lpm.Projects

open List

/-- What is listed of a project: `name_of`, its `parentName` (empty when it has none), and
everything else there is to it. -/
structure Project (α : Type) where
  name : String
  parentName : String
  info : α
  deriving DecidableEq

variable {α : Type}

/-! ## The saved order -/

variable (s : List (Project α) × List (Project α))

/-- A name of the saved order: the project of that name is taken off the map. -/
def take_named (n : String) :
    List (Project α) × List (Project α) :=
  match Keyed.collected Project.name s.1 n with
  | some p => (s.1.filter fun q => q.name ≠ n, s.2 ++ [p])
  | none => s

/-- A project that is still on the map goes to the end. -/
def take_rest (p : Project α) :
    List (Project α) × List (Project α) :=
  if (Keyed.collected Project.name s.1 p.name).isSome then
    (s.1.filter fun q => q.name ≠ p.name, s.2 ++ [p])
  else s

variable (projects : List (Project α)) (order : List String)

/-- `ordered`, with `by_name` beside it. -/
def ordered : List (Project α) :=
  (projects.foldl take_rest (order.foldl take_named (projects, []))).2

/-! ## Duplicates -/

/-- One turn of the loop that sorts out the duplicates. -/
def sort_out (names : List String) (s : Groups String (Project α) × List (Project α))
    (p : Project α) : Groups String (Project α) × List (Project α) :=
  if p.parentName ≠ "" ∧ p.parentName ∈ names then (s.1.push p.parentName p, s.2)
  else (s.1, s.2 ++ [p])

/-- A project and its duplicates, which are gone from `children` then. -/
def put_out (s : Groups String (Project α) × List (Project α)) (p : Project α) :
    Groups String (Project α) × List (Project α) :=
  (s.1.remove p.name, s.2 ++ p :: s.1.get p.name)

/-- Place each duplicate immediately after its parent. -/
def group_duplicates_after_parents : List (Project α) :=
  let (children, stripped) := projects.foldl (sort_out (projects.map Project.name)) ([], [])
  if children.isEmpty then stripped else (stripped.foldl put_out (children, [])).2

/-- Ordered names first (in saved order), then the rest in filesystem order, then duplicates
regrouped under their parents. -/
def apply_project_order : List (Project α) :=
  group_duplicates_after_parents (ordered projects order)

/-! ## Parents -/

/-- The project is a duplicate, and its parent is in the list. -/
def Under (p : Project α) : Prop :=
  p.parentName ≠ "" ∧ p.parentName ∈ projects.map Project.name

instance (projects : List (Project α)) (p : Project α) : Decidable (Under projects p) :=
  inferInstanceAs (Decidable (_ ∧ _))

/-- A duplicate of a project, of a duplicate of it, and so on. -/
inductive Family (projects : List (Project α)) (q : Project α) : Project α → Prop
  | child {p : Project α} (hparent : p.parentName = q.name) : Family projects q p
  | deeper {p p' : Project α} (h : Family projects q p') (hmem : p' ∈ projects)
    (hparent : p.parentName = p'.name) : Family projects q p

/-- No project is lost, and a duplicate stands behind its parent with nothing but the family
between them. -/
structure Arranged (projects result : List (Project α)) : Prop where
  perm : result.Perm projects
  behind : ∀ p ∈ projects, Under projects p → ∃ before q between after,
    result = before ++ q :: (between ++ p :: after) ∧ q.name = p.parentName ∧
      ∀ x ∈ between, Family projects q x

/-- No duplicate's parent is a duplicate of a project of the list. -/
def Flat : Prop :=
  ∀ p ∈ projects, ∀ q ∈ projects, Under projects p → q.name = p.parentName → ¬ Under projects q

section
variable {projects : List (Project α)} {order names : List String} {p q : Project α} {n : String}

/-! ## What the loops make -/

/-- The projects the saved order names, in its order, each once. -/
def named (projects : List (Project α)) (order : List String) : List (Project α) :=
  (Distinct.pushed [] order).filterMap (Keyed.get Project.name projects)

variable (h : (projects.map Project.name).Nodup)
include h

variable (keep : Project α → Bool)

theorem nodup_names_filter :
    ((projects.filter keep).map Project.name).Nodup :=
  h.sublist (filter_sublist.map _)

omit h in
theorem named_concat_old (h : n ∈ order) : named projects (order ++ [n]) = named projects order := by
  have hpushed : Distinct.pushed [] (order ++ [n]) = Distinct.push (Distinct.pushed [] order) n :=
    foldl_append
  rw [named, hpushed, Distinct.push, if_pos (Distinct.mem_pushed.mpr (Or.inr h)), named]

omit h in
theorem named_concat_new (h : n ∉ order) : named projects (order ++ [n])
    = named projects order ++ (Keyed.get Project.name projects n).toList := by
  have hpushed : Distinct.pushed [] (order ++ [n]) = Distinct.push (Distinct.pushed [] order) n :=
    foldl_append
  have hnew : n ∉ Distinct.pushed [] order := fun hin =>
    (Distinct.mem_pushed.mp hin).elim not_mem_nil h
  rw [named, hpushed, Distinct.push, if_neg hnew, filterMap_append, named]
  cases hget : Keyed.get Project.name projects n with
  | none => simp [hget]
  | some p => simp [hget]

/-- What the first loop leaves: the projects it did not come to, and those it put out. -/
theorem foldl_take_named (order : List String) :
    order.foldl take_named (projects, [])
      = (projects.filter fun p => p.name ∉ order, named projects order) := by
  induction order using List.reverseRecOn with
  | nil => simp [named, Distinct.pushed]
  | append_singleton order n ih =>
    rw [foldl_append, ih, foldl_cons, foldl_nil, take_named]
    dsimp only
    rw [Keyed.collected_eq_get (nodup_names_filter h _)]
    have hleft : ∀ p : Project α, p.name ∉ order ++ [n] ↔ p.name ∉ order ∧ p.name ≠ n := by
      intro p
      rw [mem_append, mem_singleton, not_or]
    by_cases hn : n ∈ order
    -- the name came before, and nothing is left under it
    · have hnone : Keyed.get Project.name (projects.filter fun p => p.name ∉ order) n = none :=
        Keyed.get_filter_none _ fun p _ hp => by simp [hp, hn]
      rw [hnone, named_concat_old hn]
      refine Prod.ext (filter_congr fun p _ => ?_) rfl
      rw [decide_eq_decide, hleft]
      exact ⟨fun hp => ⟨hp, fun heq => hp (heq ▸ hn)⟩, And.left⟩
    · have hget : Keyed.get Project.name (projects.filter fun p => p.name ∉ order) n
          = Keyed.get Project.name projects n :=
        Keyed.get_filter _ fun p _ hp => by simp [hp, hn]
      rw [hget, named_concat_new hn]
      cases hfound : Keyed.get Project.name projects n with
      | none =>
        refine Prod.ext (filter_congr fun p hp => ?_) (append_nil _).symm
        rw [decide_eq_decide, hleft]
        refine ⟨fun hout => ⟨hout, ?_⟩, And.left⟩
        rintro rfl
        exact Keyed.get_eq_none_iff.mp hfound (List.mem_map_of_mem hp)
      | some p =>
        refine Prod.ext ?_ rfl
        dsimp only
        rw [List.filter_filter]
        refine filter_congr fun p _ => ?_
        rw [← Bool.decide_and, decide_eq_decide, hleft, and_comm]

omit h in
theorem filter_name_ne (h : n ∉ projects.map Project.name) :
    (projects.filter fun p => p.name ≠ n) = projects := by
  refine filter_eq_self.mpr fun p hp => decide_eq_true ?_
  rintro rfl
  exact h (List.mem_map_of_mem hp)

/-- The second loop puts out what the first one left. -/
theorem foldl_take_rest (out : List (Project α)) :
    projects.foldl take_rest (projects.filter keep, out) = ([], out ++ projects.filter keep) := by
  induction projects generalizing out with
  | nil => simp
  | cons p projects ih =>
    obtain ⟨hp, hnodup⟩ := nodup_cons.mp h
    have hp' : p.name ∉ (projects.filter keep).map Project.name := fun hin =>
      hp ((filter_sublist.map _).subset hin)
    rw [foldl_cons, take_rest]
    dsimp only
    rw [Keyed.collected_eq_get (nodup_names_filter h _)]
    by_cases hkeep : keep p = true
    · rw [filter_cons_of_pos hkeep, Keyed.get_cons, if_pos rfl, Option.isSome_some, if_pos rfl,
        filter_cons_of_neg (by simp), filter_name_ne hp', ih hnodup, append_assoc,
        singleton_append]
    · rw [filter_cons_of_neg hkeep, Keyed.get_eq_none_iff.mpr hp', Option.isSome_none,
        if_neg Bool.false_ne_true, ih hnodup]

theorem ordered_eq (order : List String) :
    ordered projects order
      = named projects order ++ projects.filter fun p => p.name ∉ order := by
  rw [ordered, foldl_take_named h, foldl_take_rest h]

omit h in
theorem filter_concat_pos {keep : Project α → Bool} (h : keep p = true) :
    (projects ++ [p]).filter keep = projects.filter keep ++ [p] := by
  rw [filter_append, filter_cons_of_pos h, filter_nil]

omit h in
theorem filter_concat_neg {keep : Project α → Bool} (h : keep p = false) :
    (projects ++ [p]).filter keep = projects.filter keep := by
  rw [filter_append, filter_cons_of_neg (by rw [h]; exact Bool.false_ne_true),
    filter_nil, append_nil]

omit h in
/-- What is sorted out: the duplicates under the names of their parents, and the others. -/
theorem foldl_sort_out (names : List String) (projects : List (Project α)) :
    (projects.foldl (sort_out names) ([], [])).2
        = (projects.filter fun p => ¬ (p.parentName ≠ "" ∧ p.parentName ∈ names)) ∧
      ∀ n, (projects.foldl (sort_out names) ([], [])).1.get n = projects.filter fun p =>
        (p.parentName ≠ "" ∧ p.parentName ∈ names) ∧ p.parentName = n := by
  induction projects using List.reverseRecOn with
  | nil => exact ⟨rfl, fun _ => rfl⟩
  | append_singleton projects p ih =>
    obtain ⟨hothers, hchildren⟩ := ih
    rw [foldl_append, foldl_cons, foldl_nil, sort_out]
    by_cases hp : p.parentName ≠ "" ∧ p.parentName ∈ names
    · rw [if_pos hp]
      refine ⟨?_, fun n => ?_⟩
      · rw [filter_concat_neg (decide_eq_false (not_not.mpr hp)), hothers]
      · rw [Groups.get_push, hchildren, hchildren]
        by_cases hn : p.parentName = n
        · rw [if_pos hn, filter_concat_pos (decide_eq_true ⟨hp, hn⟩), hn]
        · rw [if_neg hn, filter_concat_neg (decide_eq_false fun h => hn h.2)]
    · rw [if_neg hp]
      refine ⟨?_, fun n => ?_⟩
      · rw [filter_concat_pos (decide_eq_true hp), hothers]
      · rw [hchildren, filter_concat_neg (decide_eq_false fun h => hp h.1)]

/-- Every project that is put out for its own sake, with what is under its name. -/
theorem foldl_put_out
    (children : Groups String (Project α)) (out : List (Project α)) :
    (projects.foldl put_out (children, out)).2
      = out ++ projects.flatMap fun p => p :: children.get p.name := by
  induction projects generalizing children out with
  | nil => simp
  | cons p projects ih =>
    obtain ⟨hp, hnodup⟩ := nodup_cons.mp h
    have hothers : (projects.flatMap fun q => q :: (children.remove p.name).get q.name)
        = projects.flatMap fun q => q :: children.get q.name := by
      refine flatMap_congr fun q hq => ?_
      rw [Groups.get_remove, if_neg]
      intro heq
      exact hp (heq ▸ List.mem_map_of_mem hq)
    rw [foldl_cons, put_out, ih hnodup, hothers, flatMap_cons, append_assoc]

omit h

/-- The duplicates of a project. -/
def duplicates (projects : List (Project α)) (n : String) : List (Project α) :=
  projects.filter fun p => Under projects p ∧ p.parentName = n

/-- The projects that are put out for their own sake. -/
def roots (projects : List (Project α)) : List (Project α) :=
  projects.filter fun p => ¬ Under projects p

variable (h : (projects.map Project.name).Nodup)
include h

theorem group_eq :
    group_duplicates_after_parents projects
      = (roots projects).flatMap fun p => p :: duplicates projects p.name := by
  obtain ⟨hothers, hchildren⟩ := foldl_sort_out (projects.map Project.name) projects
  unfold group_duplicates_after_parents
  dsimp only
  rw [hothers]
  by_cases hnone : (projects.foldl (sort_out (projects.map Project.name)) ([], [])).1.isEmpty = true
  · rw [if_pos hnone]
    have hnil : ∀ n, duplicates projects n = [] := by
      intro n
      have hget := hchildren n
      rw [List.isEmpty_iff.mp hnone] at hget
      exact hget.symm
    simp only [hnil]
    exact (flatMap_singleton' _).symm
  · rw [if_neg hnone, foldl_put_out (nodup_names_filter h _), nil_append]
    refine flatMap_congr fun p _ => ?_
    rw [hchildren]
    rfl

/-! ## No project is lost -/

variable {projects' : List (Project α)}

omit h in
theorem under_congr (h : projects.Perm projects') :
    Under projects p ↔ Under projects' p := by
  unfold Under
  rw [(h.map Project.name).mem_iff]

omit h in
theorem flat_congr (h : projects.Perm projects') :
    Flat projects ↔ Flat projects' := by
  simp only [Flat, h.mem_iff, under_congr h]

omit h in
theorem Family.of_perm (hperm : projects.Perm projects')
    (h : Family projects q p) : Family projects' q p := by
  induction h with
  | child hparent => exact .child hparent
  | deeper _ hmem hparent ih => exact .deeper ih (hperm.mem_iff.mp hmem) hparent

theorem mem_named :
    p ∈ named projects order ↔ p ∈ projects ∧ p.name ∈ order := by
  rw [named, mem_filterMap]
  constructor
  · rintro ⟨n, hn, hget⟩
    obtain ⟨hp, rfl⟩ := (Keyed.get_eq_some_iff h).mp hget
    exact ⟨hp, (Distinct.mem_pushed.mp hn).resolve_left not_mem_nil⟩
  · rintro ⟨hp, hn⟩
    exact ⟨p.name, Distinct.mem_pushed.mpr (Or.inr hn), (Keyed.get_eq_some_iff h).mpr ⟨hp, rfl⟩⟩

omit h in
theorem nodup_named (projects : List (Project α)) (order : List String) :
    (named projects order).Nodup := by
  refine List.Nodup.filterMap ?_ (Distinct.nodup_pushed nodup_nil)
  intro n n' p hp hp'
  rw [← Keyed.get_key hp, ← Keyed.get_key hp']

/-- The saved order only sorts the projects. -/
theorem ordered_perm (order : List String) :
    (ordered projects order).Perm projects := by
  have hnodup : projects.Nodup := h.of_map
  have hnamed : (named projects order).Perm (projects.filter fun p => p.name ∈ order) := by
    refine (perm_ext_iff_of_nodup (nodup_named _ _) (hnodup.filter _)).mpr fun p => ?_
    rw [mem_named h, mem_filter, decide_eq_true_eq]
  rw [ordered_eq h]
  refine (hnamed.append_right _).trans ?_
  simpa using filter_append_perm (fun p : Project α => decide (p.name ∈ order)) projects

omit h in
/-- The parent of a duplicate is put out for its own sake, where no duplicate is a parent. -/
theorem Flat.parent (hflat : Flat projects) (hp : p ∈ projects) (hunder : Under projects p) :
    ∃ q ∈ roots projects, q.name = p.parentName := by
  obtain ⟨q, hq, hname⟩ := List.mem_map.mp hunder.2
  exact ⟨q, mem_filter.mpr ⟨hq, decide_eq_true (hflat p hp q hq hunder hname)⟩, hname⟩

theorem group_perm (hflat : Flat projects) :
    (group_duplicates_after_parents projects).Perm projects := by
  have hsorted : (projects.filter fun p => Under projects p).Perm
      ((roots projects).flatMap fun p => duplicates projects p.name) := by
    have hkeys : ((roots projects).map Project.name).Nodup := nodup_names_filter h _
    have hparents : ∀ p ∈ projects.filter (fun p => Under projects p),
        p.parentName ∈ (roots projects).map Project.name := by
      intro p hp
      rw [mem_filter, decide_eq_true_eq] at hp
      obtain ⟨q, hq, hname⟩ := hflat.parent hp.1 hp.2
      exact List.mem_map.mpr ⟨q, hq, hname⟩
    refine (Groups.flatMap_filter_perm hkeys hparents).symm.trans ?_
    rw [flatMap_map]
    simp only [duplicates, List.filter_filter, ← Bool.decide_and, and_comm]
    exact List.Perm.refl _
  rw [group_eq h]
  refine (map_append_flatMap_perm (roots projects) id _).symm.trans ?_
  rw [List.map_id]
  refine (hsorted.symm.append_left _).trans (perm_append_comm.trans ?_)
  simpa [roots] using filter_append_perm (fun p => decide (Under projects p)) projects

/-- A duplicate stands among those of its parent, right behind it. -/
theorem group_behind (hflat : Flat projects)
    (hp : p ∈ projects) (hunder : Under projects p) : ∃ before q between after,
      group_duplicates_after_parents projects = before ++ q :: (between ++ p :: after) ∧
        q.name = p.parentName ∧ ∀ x ∈ between, Family projects q x := by
  obtain ⟨q, hq, hname⟩ := hflat.parent hp hunder
  obtain ⟨before, after, hroots⟩ := append_of_mem hq
  have hmem : p ∈ duplicates projects q.name :=
    mem_filter.mpr ⟨hp, decide_eq_true ⟨hunder, hname.symm⟩⟩
  obtain ⟨between, rest, hkids⟩ := append_of_mem hmem
  refine ⟨before.flatMap fun p => p :: duplicates projects p.name, q, between,
    rest ++ after.flatMap fun p => p :: duplicates projects p.name, ?_, hname, ?_⟩
  · rw [group_eq h, hroots, flatMap_append, flatMap_cons, hkids]
    simp only [cons_append, append_assoc]
  · intro x hx
    have hxmem : x ∈ duplicates projects q.name := by
      rw [hkids]
      exact mem_append_left _ hx
    exact .child (of_decide_eq_true (mem_filter.mp hxmem).2).2

/-- A duplicate whose parent is a duplicate is not put out. -/
theorem not_mem_group (hq : q ∈ projects)
    (hunder : Under projects p) (hname : q.name = p.parentName) (hunder' : Under projects q) :
    p ∉ group_duplicates_after_parents projects := by
  rw [group_eq h, mem_flatMap]
  rintro ⟨r, hr, hmem⟩
  have hroot := mem_filter.mp hr
  rcases mem_cons.mp hmem with rfl | hdup
  · exact of_decide_eq_true hroot.2 hunder
  · have hsame : p.parentName = r.name := (of_decide_eq_true (mem_filter.mp hdup).2).2
    have heq : r = q := inj_on_of_nodup_map h hroot.1 hq (hsame.symm.trans hname.symm)
    exact of_decide_eq_true hroot.2 (heq ▸ hunder')

/-! ## Ordering what is ordered -/

theorem filter_named_not_mem (order : List String) :
    (named projects order).filter (fun p => p.name ∉ order) = [] := by
  refine filter_eq_nil_iff.mpr fun p hp => ?_
  rw [decide_eq_true_eq, not_not]
  exact ((mem_named h).mp hp).2

/-- Ordered once more, a kind of projects stands as it stood, where the other list has that kind
in the same order. -/
theorem filter_ordered
    (hperm : projects'.Perm projects) {kind : Project α → Bool}
    (hkind : projects'.filter kind = (ordered projects order).filter kind) :
    (ordered projects' order).filter kind = (ordered projects order).filter kind := by
  have h' : (projects'.map Project.name).Nodup := (hperm.map Project.name).nodup_iff.mpr h
  have hnamed : named projects' order = named projects order := by
    refine filterMap_congr fun n _ => ?_
    cases hget : Keyed.get Project.name projects n with
    | none =>
      rw [Keyed.get_eq_none_iff] at hget ⊢
      rwa [(hperm.map Project.name).mem_iff]
    | some p =>
      rw [Keyed.get_eq_some_iff h] at hget
      rw [Keyed.get_eq_some_iff h', hperm.mem_iff]
      exact hget
  have hrest : (projects'.filter fun p => p.name ∉ order).filter kind
      = (projects.filter fun p => p.name ∉ order).filter kind := by
    rw [filter_comm, hkind, ordered_eq h, filter_comm, filter_append,
      filter_named_not_mem h, nil_append, List.filter_filter, List.filter_filter,
      List.filter_filter]
    refine filter_congr fun p _ => ?_
    rw [Bool.and_assoc, Bool.and_self]
  rw [ordered_eq h', ordered_eq h, hnamed, filter_append, filter_append, hrest]

theorem filter_group_roots :
    (group_duplicates_after_parents projects).filter (fun p => ¬ Under projects p) = roots projects := by
  have hkids : ∀ n, (duplicates projects n).filter (fun p => ¬ Under projects p) = [] := by
    intro n
    refine filter_eq_nil_iff.mpr fun p hp => ?_
    rw [decide_eq_true_eq, not_not]
    exact (of_decide_eq_true (mem_filter.mp hp).2).1
  rw [group_eq h, filter_flatMap]
  refine (flatMap_congr fun p hp => ?_).trans (flatMap_singleton' _)
  have hroot : decide (¬ Under projects p) = true := (mem_filter.mp hp).2
  rw [filter_cons_of_pos (p := fun p => decide (¬ Under projects p)) hroot, hkids]

omit h in
theorem flatMap_of_unique {key : Project α → String} {l : List (Project α)} {f : String → List (Project α)}
    (h : (l.map key).Nodup) (hf : n ∉ l.map key → f n = []) :
    (l.flatMap fun p => if key p = n then f n else []) = f n := by
  induction l with
  | nil => exact (hf not_mem_nil).symm
  | cons p l ih =>
    obtain ⟨hp, hnodup⟩ := nodup_cons.mp h
    rw [flatMap_cons]
    by_cases hn : key p = n
    · have hrest : (l.flatMap fun p => if key p = n then f n else []) = [] := by
        refine flatMap_eq_nil_iff.mpr fun q hq => if_neg ?_
        intro heq
        exact hp (List.mem_map.mpr ⟨q, hq, heq.trans hn.symm⟩)
      rw [if_pos hn, hrest, append_nil]
    · rw [if_neg hn, nil_append]
      refine ih hnodup fun hnot => hf fun hin => ?_
      rcases mem_cons.mp hin with heq | hin
      · exact hn heq.symm
      · exact hnot hin

theorem filter_group_duplicates (hflat : Flat projects)
    (n : String) : (group_duplicates_after_parents projects).filter
      (fun p => Under projects p ∧ p.parentName = n) = duplicates projects n := by
  have hkids : ∀ p ∈ roots projects, (p :: duplicates projects p.name).filter
      (fun p => Under projects p ∧ p.parentName = n)
        = if p.name = n then duplicates projects n else [] := by
    intro p hp
    have hroot : ¬ Under projects p := of_decide_eq_true (mem_filter.mp hp).2
    rw [filter_cons_of_neg fun hkind => hroot (of_decide_eq_true hkind).1, duplicates,
      List.filter_filter]
    by_cases hn : p.name = n
    · rw [if_pos hn, duplicates, hn]
      refine filter_congr fun q _ => ?_
      rw [Bool.and_self]
    · rw [if_neg hn]
      refine filter_eq_nil_iff.mpr fun q _ => ?_
      rw [← Bool.decide_and, decide_eq_true_eq]
      rintro ⟨⟨-, heq⟩, -, heq'⟩
      exact hn (heq'.symm.trans heq)
  rw [group_eq h, filter_flatMap, flatMap_congr hkids]
  refine flatMap_of_unique (nodup_names_filter h _) fun hnot => ?_
  refine filter_eq_nil_iff.mpr fun p hp => ?_
  rw [decide_eq_true_eq]
  rintro ⟨hunder, rfl⟩
  obtain ⟨q, hq, hname⟩ := hflat.parent hp hunder
  exact hnot (List.mem_map.mpr ⟨q, hq, hname⟩)

/-- What is grouped goes by who is a duplicate, and by nothing else of the list. -/
theorem group_congr (hperm : projects'.Perm projects)
    (hroots : projects'.filter (fun p => ¬ Under projects p) = roots projects)
    (hkids : ∀ n, projects'.filter (fun p => Under projects p ∧ p.parentName = n)
      = duplicates projects n) :
    group_duplicates_after_parents projects' = group_duplicates_after_parents projects := by
  rw [group_eq h, group_eq ((hperm.map Project.name).nodup_iff.mpr h), roots]
  simp only [duplicates, under_congr hperm]
  rw [hroots]
  refine flatMap_congr fun p _ => ?_
  rw [hkids, duplicates]

theorem apply_project_order_twice (hflat : Flat projects)
    (order : List String) :
    apply_project_order (apply_project_order projects order) order
      = apply_project_order projects order := by
  have hordered := ordered_perm h order
  have h' : ((ordered projects order).map Project.name).Nodup :=
    (hordered.map Project.name).nodup_iff.mpr h
  have hflat' : Flat (ordered projects order) := (flat_congr hordered).mpr hflat
  have hgroup : (apply_project_order projects order).Perm projects :=
    (group_perm h' hflat').trans hordered
  refine group_congr h' ?_ ?_ ?_
  · exact (ordered_perm ((hgroup.map Project.name).nodup_iff.mpr h) order).trans
      (hgroup.trans hordered.symm)
  · exact filter_ordered h hgroup (filter_group_roots h')
  · intro n
    exact filter_ordered h hgroup (filter_group_duplicates h' hflat' n)

/-! ## The whole -/

theorem arranged_of_flat (hflat : Flat projects)
    (order : List String) : Arranged projects (apply_project_order projects order) := by
  have hordered := ordered_perm h order
  have h' : ((ordered projects order).map Project.name).Nodup :=
    (hordered.map Project.name).nodup_iff.mpr h
  have hflat' : Flat (ordered projects order) := (flat_congr hordered).mpr hflat
  refine ⟨(group_perm h' hflat').trans hordered, ?_⟩
  intro p hp hunder
  obtain ⟨before, q, between, after, heq, hname, hfamily⟩ := group_behind h' hflat'
    (hordered.mem_iff.mpr hp) ((under_congr hordered).mpr hunder)
  exact ⟨before, q, between, after, heq, hname, fun x hx => (hfamily x hx).of_perm hordered⟩

omit h

/-- For projects of different names: nothing is lost, every duplicate stands behind its parent,
and what is ordered stays as it is, exactly when no duplicate's parent is a duplicate. -/
theorem no_project_is_lost_iff (h : (projects.map Project.name).Nodup) (order : List String) :
    (Arranged projects (apply_project_order projects order) ∧
      apply_project_order (apply_project_order projects order) order
        = apply_project_order projects order) ↔ Flat projects := by
  constructor
  · rintro ⟨harranged, -⟩ p hp q hq hunder hname hunder'
    have hordered := ordered_perm h order
    have hlost := not_mem_group ((hordered.map Project.name).nodup_iff.mpr h)
      (hordered.mem_iff.mpr hq) ((under_congr hordered).mpr hunder) hname
      ((under_congr hordered).mpr hunder')
    exact hlost (harranged.perm.mem_iff.mpr hp)
  · intro hflat
    exact ⟨arranged_of_flat h hflat order, apply_project_order_twice h hflat order⟩

end

/-- A project and two copies of it. -/
def two_copies : List (Project Unit) := [⟨"api-1", "api", ()⟩, ⟨"api", "", ()⟩, ⟨"api-2", "api", ()⟩]

theorem no_project_is_lost_two_copies :
    Arranged two_copies (apply_project_order two_copies ["api-2", "web"]) ∧
      apply_project_order (apply_project_order two_copies ["api-2", "web"]) ["api-2", "web"]
        = apply_project_order two_copies ["api-2", "web"] :=
  (no_project_is_lost_iff (by decide) _).mpr (by unfold Flat; decide)

/-- A copy of a copy is lost. -/
theorem copy_of_a_copy_is_lost : ¬ ∀ (projects : List (Project Unit)) (order : List String),
    (projects.map Project.name).Nodup →
      Arranged projects (apply_project_order projects order) ∧
        apply_project_order (apply_project_order projects order) order
          = apply_project_order projects order := by
  intro h
  have hkept := (h [⟨"api", "", ()⟩, ⟨"api-1", "api", ()⟩, ⟨"api-1-1", "api-1", ()⟩] [] (by decide)).1
  exact absurd hkept.perm.length_eq (by decide)

end Lpm.Projects
