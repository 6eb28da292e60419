/-
What a plan says about each unit, and two laws of it: planning from the other
machine gives the mirror image, and an edit nobody agreed to is never overwritten
without a word.

`mem_plan` is the way in. It reads the five loops of `plan_core` as one statement
about a unit, `Planned` and what `resolve_pair` answers for it, and both laws are
then case distinctions over `resolve_pair` and the functions under it.
-/
import Lpm.Sync.Plan

set_option autoImplicit false

open OrdMap

namespace Lpm.Sync

open List Option

/-! ## Which units a plan looks at -/

/-- The units that two inventories let cross, kind by kind. -/
def Planned (lm rm : DigestMap) : Kind → String → Prop
  | .project, name => name ∈ lm.projects ∧ name ∈ rm.projects
  | .global, name =>
    syncable_global name = true ∧
      ((lm.skills.isSome = true ∧ rm.skills.isSome = true) ∨ is_layout_file name = false)
  | .template, name => name ∈ referenced_templates lm rm
  | .skill, name =>
    (lm.skills.isSome = true ∧ rm.skills.isSome = true) ∧
      name ∉ lm.held_skills ∧ name ∉ rm.held_skills
  | .kept_skill, name =>
    ∃ a ∈ lm.kept_skills, ∃ b ∈ rm.kept_skills,
      paired a b name = true ∧ name ∉ a.held ∧ name ∉ b.held

theorem mem_referenced_templates {lm rm : DigestMap} {t : String} :
    t ∈ referenced_templates lm rm ↔
      ∃ name, (name ∈ lm.projects ∧ name ∈ rm.projects) ∧
        (t ∈ (lm.project_extends[name]?).getD [] ∨ t ∈ (rm.project_extends[name]?).getD []) := by
  simp only [referenced_templates, mem_ordered_set, mem_flatMap, Std.TreeMap.mem_keys]
  constructor
  · rintro ⟨name, hl, ht⟩
    by_cases hr : rm.projects.contains name = true
    · rw [if_pos hr, mem_append] at ht
      exact ⟨name, ⟨hl, hr⟩, ht⟩
    · rw [if_neg hr] at ht
      exact absurd ht not_mem_nil
  · rintro ⟨name, ⟨hl, hr⟩, ht⟩
    refine ⟨name, hl, ?_⟩
    rw [if_pos (show rm.projects.contains name = true from hr), mem_append]
    exact ht

theorem paired_comm (a b : KeptSkills) (unit : String) : paired a b unit = paired b a unit := by
  unfold paired
  congr 1
  funext ⟨project, _⟩
  dsimp only
  cases a.repos[project]? with
  | none => cases b.repos[project]? <;> rfl
  | some x =>
    cases b.repos[project]? with
    | none => rfl
    | some y => simp only [Bool.beq_comm]

/-- Both machines look at the same units. -/
theorem planned_comm {lm rm : DigestMap} {kind : Kind} {name : String} :
    Planned lm rm kind name ↔ Planned rm lm kind name := by
  cases kind with
  | project => exact and_comm
  | global => simp only [Planned]; rw [and_comm (a := lm.skills.isSome = true)]
  | template =>
    simp only [Planned, mem_referenced_templates]
    constructor <;> rintro ⟨p, hp, ht⟩ <;> exact ⟨p, hp.symm, ht.symm⟩
  | skill =>
    simp only [Planned]
    rw [and_comm (a := lm.skills.isSome = true), and_comm (a := name ∉ lm.held_skills)]
  | kept_skill =>
    simp only [Planned]
    constructor <;> rintro ⟨a, ha, b, hb, hp, hna, hnb⟩ <;>
      exact ⟨b, hb, a, ha, (paired_comm _ _ _).trans hp, hnb, hna⟩

/-! ## The item of a unit -/

variable (kind : Kind) (name : String)

@[simp] theorem item_kind (d : Direction) (lt rt : ℤ)
    (c del : Bool) : (item kind name d lt rt c del).kind = kind := rfl

@[simp] theorem item_name (d : Direction) (lt rt : ℤ)
    (c del : Bool) : (item kind name d lt rt c del).name = name := rfl

/-- `item`'s fields are what it was given, whatever branch made it. -/
theorem decide_both_unit (l r : SideInfo)
    (base : Option BaseState) (legacy : Bool) :
    (decide_both kind name l r base legacy).kind = kind
      ∧ (decide_both kind name l r base legacy).name = name := by
  cases base with
  | none => simp only [decide_both, resolve_no_base]; split_ifs <;> exact ⟨rfl, rfl⟩
  | some b => simp only [decide_both]; split_ifs <;> exact ⟨rfl, rfl⟩

variable {name : String} {kind : Kind} {it : SyncItem}

theorem one_sided_unit {side : SideInfo} {d : Direction}
    (h : one_sided kind name side d = some it) :
    it.kind = kind ∧ it.name = name := by
  unfold one_sided at h
  split_ifs at h
  cases h
  cases d <;> exact ⟨rfl, rfl⟩

theorem one_sided_direction {side : SideInfo} {d : Direction}
    (h : one_sided kind name side d = some it) : it.direction = d := by
  unfold one_sided at h
  split_ifs at h
  cases h
  cases d <;> rfl

variable {bases : BTreeMap String BaseState} {ld rd : Option ItemDigest}

/-- The item `resolve_pair` answers with is about the unit it was asked for. -/
theorem resolve_pair_unit {legacy : Bool}
    (h : resolve_pair kind name ld rd bases legacy = some it) :
    it.kind = kind ∧ it.name = name := by
  unfold resolve_pair at h
  dsimp only at h
  split at h
  · cases h
  · split_ifs at h <;> obtain rfl := some.inj h <;> exact decide_both_unit ..
  · exact one_sided_unit h
  · exact one_sided_unit h

theorem resolve_pair_none (kind : Kind) (name : String) (bases : BTreeMap String BaseState)
    (legacy : Bool) : resolve_pair kind name none none bases legacy = none := rfl

/-- A unit only one of the two maps knows still has to be known by one of them. -/
theorem known_of_resolve {legacy : Bool}
    (h : resolve_pair kind name ld rd bases legacy = some it) :
    ld.isSome = true ∨ rd.isSome = true := by
  cases ld with
  | some _ => exact Or.inl rfl
  | none =>
    cases rd with
    | some _ => exact Or.inr rfl
    | none => rw [resolve_pair_none] at h; cases h

/-- A loop over names that asks `resolve_pair` about each. -/
theorem mem_resolved {names : List String} {ld rd : String → Option ItemDigest} :
    it ∈ names.filterMap (fun name => resolve_pair kind name (ld name) (rd name) bases false) ↔
      it.kind = kind ∧ it.name ∈ names ∧
        resolve_pair kind it.name (ld it.name) (rd it.name) bases false = some it := by
  rw [mem_filterMap]
  constructor
  · rintro ⟨name, hname, hres⟩
    obtain ⟨hk, rfl⟩ := resolve_pair_unit hres
    exact ⟨hk, hname, hres⟩
  · rintro ⟨_, hname, hres⟩
    exact ⟨it.name, hname, hres⟩

/-- What may be planned and is known to one of the machines is among the keys the
loops run over. -/
theorem known_of_get {lm rm : BTreeMap String ItemDigest}
    (h : lm[name]?.isSome = true ∨ rm[name]?.isSome = true) :
    name ∈ lm.keys ++ rm.keys := by
  rw [mem_append, Std.TreeMap.mem_keys, Std.TreeMap.mem_keys]
  exact h.imp Std.TreeMap.mem_iff_isSome_getElem?.mpr Std.TreeMap.mem_iff_isSome_getElem?.mpr

section
variable {lm rm : DigestMap} {bases : BTreeMap String BaseState} {it : SyncItem}

/-- An item that answers for its own unit, of the given kind. -/
def AnswersFor (lm rm : DigestMap) (bases : BTreeMap String BaseState) (kind : Kind)
    (it : SyncItem) : Prop :=
  it.kind = kind ∧ Planned lm rm kind it.name ∧
    resolve_pair kind it.name (lm.get kind it.name) (rm.get kind it.name) bases false = some it

theorem mem_project_items :
    it ∈ project_items lm rm bases false ↔ AnswersFor lm rm bases .project it := by
  rw [project_items, mem_filterMap]
  constructor
  · rintro ⟨⟨name, l⟩, hmem, hres⟩
    obtain ⟨r, hr, hres⟩ := bind_eq_some_iff.mp hres
    obtain ⟨hk, rfl⟩ := resolve_pair_unit hres
    have hl : lm.projects[it.name]? = some l :=
      Std.TreeMap.mem_toList_iff_getElem?_eq_some.mp hmem
    refine ⟨hk, ⟨?_, ?_⟩, by simp only [DigestMap.get, hl, hr]; exact hres⟩
    · exact Std.TreeMap.mem_iff_isSome_getElem?.mpr (by rw [hl]; rfl)
    · exact Std.TreeMap.mem_iff_isSome_getElem?.mpr (by rw [hr]; rfl)
  · rintro ⟨_, ⟨hlp, hrp⟩, hres⟩
    obtain ⟨l, hl⟩ := isSome_iff_exists.mp (Std.TreeMap.mem_iff_isSome_getElem?.mp hlp)
    obtain ⟨r, hr⟩ := isSome_iff_exists.mp (Std.TreeMap.mem_iff_isSome_getElem?.mp hrp)
    refine ⟨(it.name, l), Std.TreeMap.mem_toList_iff_getElem?_eq_some.mpr hl, ?_⟩
    simp only [DigestMap.get, hl, hr] at hres
    simp only [hr, bind_some, hres]

theorem mem_global_items :
    it ∈ global_items lm rm bases false ↔ AnswersFor lm rm bases .global it := by
  have hskills : ((option_zip lm.skills rm.skills).filter fun _ => !false).isSome = true ↔
      lm.skills.isSome = true ∧ rm.skills.isSome = true := by
    cases lm.skills <;> cases rm.skills <;> simp [option_zip]
  simp only [global_items, mem_resolved, mem_filter, mem_ordered_set, AnswersFor, Planned,
    DigestMap.get, Bool.or_eq_true, Bool.not_eq_true', hskills]
  refine and_congr_right fun _ => and_congr_left fun hres => ?_
  have hknown := known_of_get (known_of_resolve hres)
  simp only [hknown, true_and]

theorem mem_template_items :
    it ∈ template_items lm rm bases false ↔ AnswersFor lm rm bases .template it := by
  simp only [template_items, mem_resolved, AnswersFor, Planned, DigestMap.get]

theorem mem_skill_items :
    it ∈ skill_items lm rm bases false ↔ AnswersFor lm rm bases .skill it := by
  cases hl : lm.skills with
  | none => simp [skill_items, option_zip, AnswersFor, Planned, hl]
  | some l =>
    cases hr : rm.skills with
    | none => simp [skill_items, option_zip, AnswersFor, Planned, hr]
    | some r =>
      simp only [skill_items, option_zip, bind_some, map_some, filter_some,
        Bool.not_false, if_true, mem_resolved, mem_ordered_set, mem_filter, DigestMap.get,
        AnswersFor, Planned, hl, hr]
      refine and_congr_right fun _ => and_congr_left fun hres => ?_
      have hknown := known_of_get (known_of_resolve hres)
      simp [hknown]

theorem mem_kept_items :
    it ∈ kept_items lm rm bases false ↔ AnswersFor lm rm bases .kept_skill it := by
  cases hl : lm.kept_skills with
  | none => simp [kept_items, option_zip, AnswersFor, Planned, hl]
  | some l =>
    cases hr : rm.kept_skills with
    | none => simp [kept_items, option_zip, AnswersFor, Planned, hr]
    | some r =>
      simp only [kept_items, option_zip, bind_some, map_some, filter_some,
        Bool.not_false, if_true, mem_resolved, shared_units, mem_ordered_set, mem_filter,
        DigestMap.get, AnswersFor, Planned, hl, hr]
      refine and_congr_right fun _ => and_congr_left fun hres => ?_
      have hknown := known_of_get (known_of_resolve hres)
      simp [hknown, and_assoc]

/-- The plan, unit by unit: an item is in it when its unit may cross and
`resolve_pair` answers with it. -/
theorem mem_plan :
    it ∈ compute_plan_v2 lm rm bases ↔
      Planned lm rm it.kind it.name ∧
        resolve_pair it.kind it.name (lm.get it.kind it.name) (rm.get it.kind it.name) bases
          false = some it := by
  simp only [compute_plan_v2, plan_core, mem_append, mem_project_items, mem_global_items,
    mem_template_items, mem_skill_items, mem_kept_items, AnswersFor]
  cases it.kind <;> simp

end

/-- A plan has one item for a unit at most. -/
theorem plan_unit_unique {lm rm : DigestMap}
    {it it' : SyncItem} (h : it ∈ compute_plan_v2 lm rm bases)
    (h' : it' ∈ compute_plan_v2 lm rm bases) (hk : it.kind = it'.kind)
    (hn : it.name = it'.name) : it = it' := by
  have hres := (mem_plan.mp h).2
  rw [hk, hn, (mem_plan.mp h').2] at hres
  exact (some.inj hres).symm

/-! ## The mirror image of a decision -/

def Direction.flip : Direction → Direction
  | .toLocal => .toRemote
  | .toRemote => .toLocal

variable (it : SyncItem)

/-- The item as the other machine has it: the same unit and the same winner. -/
def SyncItem.mirror : SyncItem :=
  { it with direction := it.direction.flip, local_mtime := it.remote_mtime,
            remote_mtime := it.local_mtime }

@[simp] theorem mirror_item (kind : Kind) (name : String) (d : Direction) (lt rt : ℤ)
    (c del : Bool) :
    (item kind name d lt rt c del).mirror = item kind name d.flip rt lt c del := rfl

@[simp] theorem flip_toLocal : Direction.toLocal.flip = .toRemote := rfl

@[simp] theorem flip_toRemote : Direction.toRemote.flip = .toLocal := rfl

@[simp] theorem mirror_mirror : it.mirror.mirror = it := by
  obtain ⟨kind, name, direction, lt, rt, c, del⟩ := it
  cases direction <;> rfl

@[simp] theorem mirror_kind : it.mirror.kind = it.kind := rfl

@[simp] theorem mirror_name : it.mirror.name = it.name := rfl

/-- Two different keys of a linear order: one side's "mine is below yours" is the
other side's "it is not". -/
theorem lt_swap {α : Type*} [LinearOrder α] {a b : α} (h : a ≠ b) : b < a ↔ ¬ a < b := by
  rw [not_lt]
  exact ⟨le_of_lt, fun hle => lt_of_le_of_ne hle h.symm⟩

theorem one_sided_mirror (kind : Kind) (name : String) (side : SideInfo) :
    one_sided kind name side .toLocal = (one_sided kind name side .toRemote).map SyncItem.mirror := by
  unfold one_sided
  split_ifs <;> rfl

/-- Without a base the two machines agree wherever content breaks the tie, and
elsewhere when the times differ. -/
theorem resolve_no_base_mirror {l r : SideInfo}
    (hck : l.ck ≠ r.ck) (hdel : ¬ (l.deleted = true ∧ r.deleted = true))
    (htie : (kind = .global ∨ kind = .template) → l.deleted = false → r.deleted = false →
      l.mtime ≠ r.mtime) :
    resolve_no_base kind name r l false = (resolve_no_base kind name l r false).mirror := by
  have hkey : toLex (l.mtime, option_key l.ck) ≠ toLex (r.mtime, option_key r.ck) := by
    intro h
    exact hck (Prod.ext_iff.mp (toLex_inj.mp h)).2
  cases hl : l.deleted with
  | true =>
    have hr : r.deleted = false := by
      cases hr : r.deleted with
      | false => rfl
      | true => exact absurd ⟨hl, hr⟩ hdel
    simp [resolve_no_base, hl, hr]
  | false =>
    cases hr : r.deleted with
    | true => simp [resolve_no_base, hl, hr]
    | false =>
      by_cases hkind : kind = .project ∨ kind = .skill ∨ kind = .kept_skill
      -- a scaffold on one side decides, and else time and content together do
      · cases hls : l.scaffold <;> cases hrs : r.scaffold <;>
          simp only [resolve_no_base, hl, hr, hkind, hls, hrs, lt_swap hkey] <;>
          split_ifs <;> simp_all
      · have hne : l.mtime ≠ r.mtime := by
          refine htie ?_ hl hr
          cases kind <;> simp_all
        simp only [resolve_no_base, hl, hr, hkind, lt_swap hne]
        split_ifs <;> simp_all

/-- With a base or without one, two machines that look at a differing pair choose
the same winner, unless only the times could tell and they do not. -/
theorem decide_both_mirror {l r : SideInfo} {lc rc : String}
    {base : Option BaseState} (hlc : l.ck = some lc) (hrc : r.ck = some rc) (hne : lc ≠ rc)
    (hdel : ¬ (l.deleted = true ∧ r.deleted = true))
    (htie : base = none → (kind = .global ∨ kind = .template) → l.deleted = false →
      r.deleted = false → l.mtime ≠ r.mtime) :
    decide_both kind name r l base false = (decide_both kind name l r base false).mirror := by
  cases base with
  | none =>
    refine resolve_no_base_mirror ?_ hdel (htie rfl)
    rw [hlc, hrc]
    exact fun h => hne (some.inj h)
  | some b =>
    have hkey : toLex (r.rev, toLex (r.device, rc)) ≠ toLex (l.rev, toLex (l.device, lc)) := by
      intro h
      have h2 := (Prod.ext_iff.mp (toLex_inj.mp h)).2
      exact hne (Prod.ext_iff.mp (toLex_inj.mp h2)).2.symm
    have hmoved : (lc != b.content_key) = true ∨ (rc != b.content_key) = true := by
      by_contra hboth
      simp only [not_or, Bool.not_eq_true, bne_eq_false_iff_eq] at hboth
      exact hne (hboth.1.trans hboth.2.symm)
    -- at most one of the two can be a scaffold that replaces a real config
    have hscaffold : ¬ ((r.scaffold && !l.scaffold) = true ∧ (l.scaffold && !r.scaffold) = true) := by
      cases l.scaffold <;> cases r.scaffold <;> simp
    simp only [decide_both, hlc, hrc, getD_some, lt_swap hkey, Bool.and_assoc,
      decide_not, Bool.not_eq_true']
    generalize (lc != b.content_key) = lmoved at hmoved ⊢
    generalize (rc != b.content_key) = rmoved at hmoved ⊢
    generalize (r.scaffold && !l.scaffold) = rs at hscaffold ⊢
    generalize (l.scaffold && !r.scaffold) = ls at hscaffold ⊢
    generalize decide (toLex (r.rev, toLex (r.device, rc)) < toLex (l.rev, toLex (l.device, lc)))
      = wins
    cases lmoved <;> cases rmoved <;> cases rs <;> cases ls <;> cases wins <;>
      by_cases hp : kind = .project <;> simp_all

/-- A unit the mtime direction cannot decide: a global file or a template that
both machines have live and different, with no agreed base and one modification
time. -/
def MtimeTie (kind : Kind) (name : String) (ld rd : Option ItemDigest)
    (bases : BTreeMap String BaseState) : Prop :=
  (kind = .global ∨ kind = .template) ∧ bases[item_key kind name]? = none ∧
    ∃ l ∈ ld, ∃ r ∈ rd, l.deleted = false ∧ r.deleted = false ∧ l.hash ≠ r.hash ∧
      l.mtime = r.mtime

/-- `side_info` of a live digest. -/
theorem side_info_live {d : ItemDigest} (h : d.deleted = false) :
    side_info (some d) false
      = { ck := some d.hash, rev := d.rev, device := d.device, mtime := d.mtime,
          deleted := false, scaffold := d.scaffold } := by
  simp [side_info, h]

variable (d : ItemDigest)

/-- The content key a machine shows for a unit it knows. -/
def ItemDigest.content_key : String := if d.deleted then TOMBSTONE else d.hash

theorem side_info_ck : (side_info (some d) false).ck = some d.content_key := by
  cases h : d.deleted <;> simp [side_info, ItemDigest.content_key, h]

theorem side_info_is_deleted : (side_info (some d) false).deleted = d.deleted := by
  cases h : d.deleted <;> simp [side_info, h]

theorem side_info_mtime : (side_info (some d) false).mtime = d.mtime := by
  cases h : d.deleted <;> simp [side_info, h]

/-- `resolve_pair` on a unit both machines know. -/
theorem resolve_pair_both (kind : Kind) (name : String) (l r : ItemDigest)
    (bases : BTreeMap String BaseState) :
    resolve_pair kind name (some l) (some r) bases false
      = if l.content_key = r.content_key then none
        else some (decide_both kind name (side_info (some l) false) (side_info (some r) false)
          bases[item_key kind name]? false) := by
  simp only [resolve_pair, side_info_ck, Bool.false_eq_true, if_false]

/-- `resolve_pair` on a unit only this machine knows. -/
theorem resolve_pair_left (kind : Kind) (name : String) (l : ItemDigest)
    (bases : BTreeMap String BaseState) :
    resolve_pair kind name (some l) none bases false
      = one_sided kind name (side_info (some l) false) .toRemote := by
  simp only [resolve_pair, side_info_ck]
  rfl

/-- `resolve_pair` on a unit only the other machine knows. -/
theorem resolve_pair_right (kind : Kind) (name : String) (r : ItemDigest)
    (bases : BTreeMap String BaseState) :
    resolve_pair kind name none (some r) bases false
      = one_sided kind name (side_info (some r) false) .toLocal := by
  simp only [resolve_pair, side_info_ck]
  rfl

/-- Away from such a tie the other machine's answer is the mirror image. -/
theorem resolve_pair_mirror (h : ¬ MtimeTie kind name ld rd bases) :
    resolve_pair kind name rd ld bases false
      = (resolve_pair kind name ld rd bases false).map SyncItem.mirror := by
  cases ld with
  | none =>
    cases rd with
    | none => rfl
    | some r =>
      rw [resolve_pair_left, resolve_pair_right, one_sided_mirror, Option.map_map]
      have hinv : SyncItem.mirror ∘ SyncItem.mirror = id := funext mirror_mirror
      rw [hinv, Option.map_id, id]
  | some l =>
    cases rd with
    | none => rw [resolve_pair_left, resolve_pair_right, one_sided_mirror]
    | some r =>
      rw [resolve_pair_both, resolve_pair_both]
      by_cases hck : l.content_key = r.content_key
      · rw [if_pos hck, if_pos hck.symm]; rfl
      rw [if_neg hck, if_neg (Ne.symm hck), map_some]
      congr 1
      refine decide_both_mirror (side_info_ck l) (side_info_ck r) hck ?_ ?_
      -- two tombstones have one content key
      · rw [side_info_is_deleted, side_info_is_deleted]
        rintro ⟨hl, hr⟩
        exact hck (by simp [ItemDigest.content_key, hl, hr])
      · rw [side_info_is_deleted, side_info_is_deleted, side_info_mtime, side_info_mtime]
        intro hbase hkind hl hr hmt
        have hhash : l.hash ≠ r.hash := by simpa [ItemDigest.content_key, hl, hr] using hck
        exact h ⟨hkind, hbase, l, rfl, r, rfl, hl, hr, hhash, hmt⟩

/-- At such a tie each machine pushes its own copy. -/
theorem resolve_pair_tie (h : MtimeTie kind name ld rd bases) :
    ∃ it, resolve_pair kind name ld rd bases false = some it ∧ it.direction = .toRemote := by
  obtain ⟨hkind, hbase, l, rfl, r, rfl, hl, hr, hhash, hmt⟩ := h
  have hck : ¬ l.content_key = r.content_key := by simpa [ItemDigest.content_key, hl, hr] using hhash
  have hnot : ¬ (kind = .project ∨ kind = .skill ∨ kind = .kept_skill) := by
    rcases hkind with rfl | rfl <;> simp
  refine ⟨_, by rw [resolve_pair_both, if_neg hck], ?_⟩
  simp [decide_both, hbase, resolve_no_base, side_info_live hl, side_info_live hr, hnot, hmt, item]

theorem mtimeTie_comm (h : MtimeTie kind name ld rd bases) :
    MtimeTie kind name rd ld bases := by
  obtain ⟨hkind, hbase, l, hl, r, hr, hld, hrd, hhash, hmt⟩ := h
  exact ⟨hkind, hbase, r, hr, l, hl, hrd, hld, hhash.symm, hmt.symm⟩

/-! ## The mirror law -/

/-- The two machines of a pair agree on every unit: one plans it when the other
does, and then in the opposite direction and with the same flags. -/
def MirrorLaw (lm rm : DigestMap) (bases : BTreeMap String BaseState) : Prop :=
  ∀ kind name,
    ((∃ it ∈ compute_plan_v2 lm rm bases, it.kind = kind ∧ it.name = name) ↔
      ∃ it ∈ compute_plan_v2 rm lm bases, it.kind = kind ∧ it.name = name) ∧
    ∀ it ∈ compute_plan_v2 lm rm bases, it.kind = kind → it.name = name →
      ∀ it' ∈ compute_plan_v2 rm lm bases, it'.kind = kind → it'.name = name →
        it'.direction = it.direction.flip ∧ it'.conflict = it.conflict ∧ it'.deleted = it.deleted

/-- The planner meets the mirror law exactly on the pairs of inventories in which no
planned unit is left to an equal modification time. -/
theorem mirror_law_iff (lm rm : DigestMap) (bases : BTreeMap String BaseState) :
    MirrorLaw lm rm bases ↔
      ∀ kind name, Planned lm rm kind name →
        ¬ MtimeTie kind name (lm.get kind name) (rm.get kind name) bases := by
  constructor
  · intro h kind name hplan htie
    obtain ⟨it, hit, hdir⟩ := resolve_pair_tie htie
    obtain ⟨it', hit', hdir'⟩ := resolve_pair_tie (mtimeTie_comm htie)
    obtain ⟨rfl, rfl⟩ := resolve_pair_unit hit
    obtain ⟨hk, hn⟩ := resolve_pair_unit hit'
    have hmem : it ∈ compute_plan_v2 lm rm bases := mem_plan.mpr ⟨hplan, hit⟩
    have hmem' : it' ∈ compute_plan_v2 rm lm bases := by
      refine mem_plan.mpr ⟨?_, ?_⟩ <;> rw [hk, hn]
      · exact planned_comm.mp hplan
      · exact hit'
    have hflip := ((h it.kind it.name).2 it hmem rfl rfl it' hmem' hk hn).1
    rw [hdir, hdir', flip_toRemote] at hflip
    cases hflip
  · intro h kind name
    -- both plans answer for the unit with one decision and its mirror image
    have hmirror : ∀ {it it' : SyncItem}, it ∈ compute_plan_v2 lm rm bases →
        it' ∈ compute_plan_v2 rm lm bases → it.kind = it'.kind → it.name = it'.name →
        it' = it.mirror := by
      intro it it' hit hit' hk hn
      obtain ⟨hplan, hres⟩ := mem_plan.mp hit
      obtain ⟨_, hres'⟩ := mem_plan.mp hit'
      rw [← hk, ← hn, resolve_pair_mirror (h _ _ hplan), hres] at hres'
      exact (some.inj hres').symm
    refine ⟨⟨?_, ?_⟩, ?_⟩
    · rintro ⟨it, hit, rfl, rfl⟩
      obtain ⟨hplan, hres⟩ := mem_plan.mp hit
      refine ⟨it.mirror, mem_plan.mpr ⟨planned_comm.mp hplan, ?_⟩, rfl, rfl⟩
      rw [mirror_kind, mirror_name, resolve_pair_mirror (h _ _ hplan), hres, map_some]
    · rintro ⟨it, hit, rfl, rfl⟩
      obtain ⟨hplan, hres⟩ := mem_plan.mp hit
      have hplan' := planned_comm.mp hplan
      have hback := resolve_pair_mirror fun htie => h _ _ hplan' (mtimeTie_comm htie)
      refine ⟨it.mirror, mem_plan.mpr ⟨hplan', ?_⟩, rfl, rfl⟩
      rw [mirror_kind, mirror_name, hback, hres, map_some]
    · rintro it hit rfl rfl it' hit' hk hn
      obtain rfl := hmirror hit hit' hk.symm hn.symm
      exact ⟨rfl, rfl, rfl⟩

/-- An inventory with one global file, live and written at `mtime`. -/
def one_global (name hash device : String) (rev : ℕ) (mtime : ℤ) : DigestMap :=
  let digest : ItemDigest := { hash, mtime, rev, device, deleted := false, scaffold := false }
  { DigestMap.empty with globals := {(name, digest)}, device }

/-- Two machines that saved different copies of `global.yml` in the same
millisecond, before their first sync. -/
theorem mirror_law_fails_on_a_tie :
    ¬ MirrorLaw (one_global "global.yml" "A" "a" 1 1700000000000)
      (one_global "global.yml" "B" "b" 1 1700000000000) ∅ := by
  intro h
  have hpush : item .global "global.yml" .toRemote 1700000000000 1700000000000 false false ∈
      compute_plan_v2 (one_global "global.yml" "A" "a" 1 1700000000000)
        (one_global "global.yml" "B" "b" 1 1700000000000) ∅ := by decide
  have hpush' : item .global "global.yml" .toRemote 1700000000000 1700000000000 false false ∈
      compute_plan_v2 (one_global "global.yml" "B" "b" 1 1700000000000)
        (one_global "global.yml" "A" "a" 1 1700000000000) ∅ := by decide
  have hflip := ((h .global "global.yml").2 _ hpush rfl rfl _ hpush' rfl rfl).1
  exact absurd hflip (by decide)

/-! ## No silent lost edit -/

/-- What stands on the machine an item writes to. -/
def overwritten (lm rm : DigestMap) (it : SyncItem) : Option ItemDigest :=
  match it.direction with
  | .toLocal => lm.get it.kind it.name
  | .toRemote => rm.get it.kind it.name

/-- Against a base, an item that replaces a side which moved off it is flagged. -/
theorem decide_both_flags (kind : Kind) (name : String) {l r : SideInfo} {lc rc : String}
    (b : BaseState) (hlc : l.ck = some lc) (hrc : r.ck = some rc) :
    let it := decide_both kind name l r (some b) false
    (it.direction = .toLocal → lc ≠ b.content_key → it.conflict = true) ∧
      (it.direction = .toRemote → rc ≠ b.content_key → it.conflict = true) := by
  intro it
  simp only [it, decide_both, hlc, hrc, getD_some]
  split_ifs with hremote hlocal hboth hwins hmoved
  · exact ⟨fun _ _ => rfl, fun _ _ => rfl⟩
  · exact ⟨fun _ _ => rfl, fun _ _ => rfl⟩
  · exact ⟨fun _ _ => rfl, fun _ _ => rfl⟩
  · exact ⟨fun _ _ => rfl, fun _ _ => rfl⟩
  -- only the other machine moved, so what is overwritten here is the base
  · refine ⟨fun _ hlm => absurd ?_ hboth, fun hdir => ?_⟩
    · simp [hmoved, hlm]
    · cases hdir
  · refine ⟨fun hdir => ?_, fun _ hrm => absurd ?_ hmoved⟩
    · cases hdir
    · simp [hrm]

/-- Whatever an item overwrites or deletes is either what the two machines had
agreed on, or the item says that an edit is lost. -/
theorem no_silent_lost_edit {lm rm : DigestMap} {bases : BTreeMap String BaseState}
    {it : SyncItem} {b : BaseState} {d : ItemDigest} (hit : it ∈ compute_plan_v2 lm rm bases)
    (hb : bases[item_key it.kind it.name]? = some b) (hd : overwritten lm rm it = some d)
    (hmoved : d.content_key ≠ b.content_key) : it.conflict = true := by
  have hres := (mem_plan.mp hit).2
  cases hl : lm.get it.kind it.name with
  | none =>
    cases hr : rm.get it.kind it.name with
    | none => rw [hl, hr, resolve_pair_none] at hres; cases hres
    | some r =>
      -- nothing stands on this machine, and the item writes here
      rw [hl, hr, resolve_pair_right] at hres
      simp only [overwritten, one_sided_direction hres, hl] at hd
      cases hd
  | some l =>
    cases hr : rm.get it.kind it.name with
    | none =>
      rw [hl, hr, resolve_pair_left] at hres
      simp only [overwritten, one_sided_direction hres, hr] at hd
      cases hd
    | some r =>
      rw [hl, hr, resolve_pair_both, hb] at hres
      split_ifs at hres with hck
      have hflags := decide_both_flags it.kind it.name b (side_info_ck l) (side_info_ck r)
      rw [some.inj hres] at hflags
      cases hdir : it.direction with
      | toLocal =>
        simp only [overwritten, hdir, hl, some.injEq] at hd
        exact hflags.1 hdir (hd ▸ hmoved)
      | toRemote =>
        simp only [overwritten, hdir, hr, some.injEq] at hd
        exact hflags.2 hdir (hd ▸ hmoved)

/-- Both machines edited `global.yml` since they agreed on it: the higher revision
wins and the item says so. -/
theorem lost_edit_is_flagged :
    ∃ it ∈ compute_plan_v2 (one_global "global.yml" "A" "a" 2 0)
        (one_global "global.yml" "B" "b" 3 0)
        {("global/global.yml", { rev := 1, digest := "0", deleted := false })},
      it.direction = .toLocal ∧ it.conflict = true := by
  have hit : item .global "global.yml" .toLocal 0 0 true false ∈
      compute_plan_v2 (one_global "global.yml" "A" "a" 2 0)
        (one_global "global.yml" "B" "b" 3 0)
        {("global/global.yml", { rev := 1, digest := "0", deleted := false })} := by decide
  exact ⟨_, hit, rfl, no_silent_lost_edit hit (b := ⟨1, "0", false⟩)
    (d := ⟨"A", 0, 2, "a", false, false⟩) (by decide) (by decide) (by decide)⟩

end Lpm.Sync
