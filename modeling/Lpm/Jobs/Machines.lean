/-
Which machine runs a job that names its machines: `jobs/machines.rs`.

Every machine decides for itself from its own list of the others. What makes the
decisions agree is one order of the machines, the listed ones first and then, with
`any`, the rest by id; `ahead_of` is the part of that order before a machine, and
`decide` runs only where nobody in it is up and may run the job.

A machine is asked at most once in a decision, so what it answers is a function of
its id here.
-/
import Lpm.Jobs.Conversations
import Lpm.Lib.OrdMap
import Mathlib.Data.Finset.Max
import Mathlib.Data.String.Basic

set_option autoImplicit false

open OrdMap

namespace Lpm.Jobs.Sharing

open List

/-! ## The order of the machines -/

def STAND_IN_GRACE : ℕ := 5 * 60
def LATE_AFTER : ℕ := 3 * 60
def CATCH_UP_GRACE : ℕ := 5 * 60

/-- `u64::MAX`. -/
def U64_MAX : ℕ := 2 ^ 64 - 1

/-- `Machines`: host ids, best first, and whether any other machine may run the job
after them. -/
structure Machines where
  list : List String
  any : Bool

variable (m : Machines)

/-- `ahead_of`: the machines before `me`, among the `known` others; `none` when `me`
may not run the job. -/
def ahead_of (me : String) (known : List String) : Option (List String) :=
  match m.list.idxOf? me with
  | some i => some (m.list.take i)
  | none =>
    if !m.any then none
    else
      let rest := known.filter fun id => id < me && !m.list.contains id
      some (m.list ++ ordered_set rest)

/-- `others`: every other machine that could have run the job. -/
def others (me : String) (known : List String) : List String :=
  let out := m.list.filter fun id => id != me
  if m.any then
    known.foldl (fun out id => if id != me && !out.contains id then out ++ [id] else out) out
  else out

/-- What a machine ahead of this one is doing about a run. -/
inductive Ahead where
  | Takes
  | Passes
  | Away (secs : ℕ)
  deriving DecidableEq

inductive Turn where
  | Run
  | Wait
  | Defer
  deriving DecidableEq

/-- `matches!(a, Ahead::Away(secs) if *secs < patience)`. -/
def Ahead.away_less (patience : ℕ) : Ahead → Bool
  | .Away secs => secs < patience
  | _ => false

/-- `turn`: one ahead that is on takes the run, and one that is away counts as off
only after a grace for each place ahead. -/
def turn (ahead : List Ahead) : Turn :=
  if ahead.contains .Takes then .Defer
  else
    let patience := STAND_IN_GRACE * ahead.length % 2 ^ 64
    if ahead.any (Ahead.away_less patience) then .Wait
    else .Run

/-- `catch_up_waits`. -/
def catch_up_waits (late others_away : Bool) (since_noticed : ℕ) : Bool :=
  late && others_away && since_noticed < CATCH_UP_GRACE

/-- `ran`: skips and holds are no runs. -/
def ran (result : String) : Bool :=
  !(result == SKIPPED_OVERLAP || result == SKIPPED_PENDING_COPY || result == PENDING_WINDOW
    || result == SKIPPED_CAPACITY)

/-- `covers`: the entry is a run of the occurrence that came due at `fire`. -/
def covers (entry : HistoryEntry) (fire : ℕ) : Bool :=
  entry.question.isNone && fire ≤ entry.at && ran entry.result

/-! ## The decision -/

/-- What a machine says about one of its jobs. -/
structure Answer where
  has : Bool
  eligible : Bool
  enabled : Bool
  running : Bool
  runs : List HistoryEntry

inductive Plan where
  | Run
  | Hold
  | Skip
  deriving DecidableEq

/-- Another machine as this one sees it. -/
structure Other where
  id : String
  up : Bool
  away : ℕ

structure Decision where
  plan : Plan
  take : List (String × List HistoryEntry)

/-- `Decision::just`. -/
def Decision.just (plan : Plan) : Decision := { plan, take := [] }

variable (known : List Other)

/-- The `up` of `decide`. -/
def up (id : String) : Bool := known.any fun o => o.id == id && o.up

variable (ask : String → Option Answer)

/-- What `decide` makes of a machine ahead: one it does not know can never be seen
and cannot hold the run up, and one that cannot be asked runs every job it has. -/
def ahead_state (id : String) : Ahead :=
  if !up known id then
    .Away (((known.find? fun o => o.id == id).map (·.away)).getD U64_MAX)
  else
    match ask id with
    | some a => if a.has && (a.eligible || !a.enabled) then .Takes else .Passes
    | none => .Takes

/-- What the loop of `decide` over the other machines gathers. -/
structure Gathered where
  take : List (String × List HistoryEntry)
  covered : Bool
  away : Bool

/-- One turn of that loop. -/
def gather (keeper : Bool) (fire : ℕ)
    (g : Gathered) (id : String) : Gathered :=
  if !(known.map (·.id)).contains id then g
  else if !up known id then { g with away := true }
  else
    match ask id with
    | none => g
    | some a =>
      { g with
        covered := g.covered || (a.running || a.runs.any fun r => covers r fire)
        take := if keeper && !a.runs.isEmpty then g.take ++ [(id, a.runs)] else g.take }

/-- `decide`: whether this machine runs the occurrence that came due at `fire`. -/
def decide (me : String) (known : List Other) (ask : String → Option Answer)
    (fire now seen : ℕ) : Decision :=
  let ids := known.map (·.id)
  match ahead_of m me ids with
  | none => Decision.just .Skip
  | some ahead =>
    match turn (ahead.map (ahead_state known ask)) with
    | .Defer => Decision.just .Skip
    | .Wait => Decision.just .Hold
    | .Run =>
      let g := (others m me ids).foldl (gather known ask ahead.isEmpty fire)
        { take := [], covered := false, away := false }
      let late : Bool := LATE_AFTER < seen - fire
      let plan :=
        if g.covered then .Skip
        else if catch_up_waits late g.away (now - seen) then .Hold
        else .Run
      { plan, take := g.take }

/-! ## Taking turns -/

/-- The machine may run the job: it is listed, or any machine may. -/
def MayRun (id : String) : Prop := id ∈ m.list ∨ m.any = true

theorem ahead_of_eq_none {m : Machines} {me : String} {known : List String} :
    ahead_of m me known = none ↔ ¬ MayRun m me := by
  unfold ahead_of MayRun
  cases hi : m.list.idxOf? me with
  | some i =>
    have hmem : me ∈ m.list := by
      by_contra hno
      rw [idxOf?_eq_none_iff.mpr hno] at hi
      cases hi
    simp [hmem]
  | none =>
    have hno : me ∉ m.list := idxOf?_eq_none_iff.mp hi
    cases m.any <;> simp [hno]

variable (known : List String)

/-- The place of a listed machine: before it stand the ids of the list up to its
first mention. -/
theorem ahead_of_listed {m : Machines} {me : String} {before after : List String}
    (hlist : m.list = before ++ me :: after) (hme : me ∉ before) :
    ahead_of m me known = some before := by
  have hi : m.list.idxOf? me = some before.length := by
    rw [hlist, idxOf?_eq_some_iff]
    refine ⟨by simp, by simp, fun j hj heq => hme ?_⟩
    rw [getElem_append_left hj] at heq
    exact heq ▸ getElem_mem hj
  rw [ahead_of, hi, hlist]
  simp

/-- The place of a machine nobody listed: after the whole list and the known ids
below its own. -/
theorem ahead_of_unlisted {m : Machines} {me : String}
    (hany : m.any = true) (hme : me ∉ m.list) :
    ∃ rest, ahead_of m me known = some (m.list ++ rest) ∧
      ∀ id, id ∈ rest ↔ id ∈ known ∧ id < me ∧ id ∉ m.list := by
  refine ⟨_, by rw [ahead_of, idxOf?_eq_none_iff.mpr hme]; simp [hany]; rfl, fun id => ?_⟩
  simp [mem_ordered_set]

/-- A set of machines that are all up, know each other, have the job enabled and
answer honestly, with no run of the occurrence behind them. Each sees the run due at
an instant of its own, `fire`. -/
structure AllUp (m : Machines) (S : Finset String) (known : String → List Other)
    (ask : String → String → Option Answer) (fire : String → ℕ) : Prop where
  knows : ∀ me ∈ S, ∀ id, id ∈ (known me).map (·.id) ↔ id ∈ S ∧ id ≠ me
  all_up : ∀ me ∈ S, ∀ o ∈ known me, o.up = true
  honest : ∀ me ∈ S, ∀ id ∈ S, id ≠ me → ∃ a, ask me id = some a ∧ a.has = true ∧
    a.enabled = true ∧ (a.eligible = true ↔ MayRun m id) ∧ a.running = false ∧
      ∀ r ∈ a.runs, covers r (fire me) = false

section
variable {m : Machines} {S : Finset String} {known : String → List Other}
  {ask : String → String → Option Answer} {fire : String → ℕ}

variable (h : AllUp m S known ask fire)
include h

theorem AllUp.up_iff {me : String} (hme : me ∈ S) (id : String) :
    up (known me) id = true ↔ id ∈ S ∧ id ≠ me := by
  rw [← h.knows me hme id]
  simp only [up, List.any_eq_true, Bool.and_eq_true, beq_iff_eq, List.mem_map]
  constructor
  · rintro ⟨o, ho, hid, -⟩
    exact ⟨o, ho, hid⟩
  · rintro ⟨o, ho, hid⟩
    exact ⟨o, ho, hid, h.all_up me hme o ho⟩

variable {me id : String}

/-- A machine of the set that may run the job takes it from those behind it. -/
theorem AllUp.takes (hme : me ∈ S)
    (hid : id ∈ S) (hne : id ≠ me) (hmay : MayRun m id) :
    ahead_state (known me) (ask me) id = .Takes := by
  obtain ⟨a, hask, hhas, -, helig, -⟩ := h.honest me hme id hid hne
  have hup : up (known me) id = true := (h.up_iff hme id).mpr ⟨hid, hne⟩
  simp [ahead_state, hup, hask, hhas, helig.mpr hmay]

/-- A listed machine outside the set is one nobody is paired with. -/
theorem AllUp.never_seen (hme : me ∈ S)
    (hid : id ∉ S) : ahead_state (known me) (ask me) id = .Away U64_MAX := by
  have hup : up (known me) id = false := by
    rw [← Bool.not_eq_true, h.up_iff hme id]
    exact fun hand => hid hand.1
  have hfind : (known me).find? (fun o => o.id == id) = none := by
    rw [find?_eq_none]
    intro o ho hoid
    have hmem := (h.knows me hme id).mp (List.mem_map.mpr ⟨o, ho, by simpa using hoid⟩)
    exact hid hmem.1
  simp [ahead_state, hup, hfind]

omit h in
/-- With only such machines ahead it is this one's turn at once. -/
theorem turn_run {ahead : List Ahead} (h : ∀ a ∈ ahead, a = .Away U64_MAX) :
    turn ahead = .Run := by
  have htakes : ahead.contains .Takes = false := by
    rw [Bool.eq_false_iff]
    intro hc
    have := h _ (contains_iff_mem.mp hc)
    cases this
  have hwait : ahead.any (Ahead.away_less (STAND_IN_GRACE * ahead.length % 2 ^ 64)) = false := by
    rw [List.any_eq_false]
    intro a ha
    -- no patience reaches `u64::MAX`
    have hlt : STAND_IN_GRACE * ahead.length % 2 ^ 64 < 2 ^ 64 := Nat.mod_lt _ (Nat.two_pow_pos 64)
    rw [h a ha, Ahead.away_less, U64_MAX, decide_eq_true_eq]
    omega
  simp only [turn, htakes, hwait, Bool.false_eq_true, if_false]

omit h in
theorem turn_defer {ahead : List Ahead} (h : Ahead.Takes ∈ ahead) : turn ahead = .Defer := by
  simp [turn, h]

/-- Asking the others turns up no run of the occurrence and nobody out of reach. -/
theorem AllUp.gather_clear {me : String} (hme : me ∈ S)
    (keeper : Bool) (ids : List String) (g : Gathered) (hc : g.covered = false)
    (ha : g.away = false) :
    let g' := ids.foldl (gather (known me) (ask me) keeper (fire me)) g
    g'.covered = false ∧ g'.away = false := by
  induction ids generalizing g with
  | nil => exact ⟨hc, ha⟩
  | cons id ids ih =>
    have hstep : (gather (known me) (ask me) keeper (fire me) g id).covered = false ∧
        (gather (known me) (ask me) keeper (fire me) g id).away = false := by
      unfold gather
      by_cases hknown : id ∈ (known me).map (·.id)
      · obtain ⟨hid, hne⟩ := (h.knows me hme id).mp hknown
        obtain ⟨a, hask, -, -, -, hrun, hruns⟩ := h.honest me hme id hid hne
        have hup : up (known me) id = true := (h.up_iff hme id).mpr ⟨hid, hne⟩
        have hany : (a.runs.any fun r => covers r (fire me)) = false :=
          List.any_eq_false.mpr fun r hr => by simp [hruns r hr]
        have hyes : ((known me).map (·.id)).contains id = true := contains_iff_mem.mpr hknown
        simp only [hyes, hup, hask, hc, ha, hrun, hany, Bool.not_true, Bool.false_eq_true, if_false,
          Bool.or_self, and_self]
      · have hno : ((known me).map (·.id)).contains id = false := by
          rw [← Bool.not_eq_true, contains_iff_mem]
          exact hknown
        simp only [hno, hc, ha, Bool.not_false, if_true, and_self]
    exact ih _ hstep.1 hstep.2

/-- Nobody of the set ahead: the machine runs the job. -/
theorem AllUp.decide_run {me : String} (hme : me ∈ S)
    {ahead : List String} (hahead : ahead_of m me ((known me).map (·.id)) = some ahead)
    (hnone : ∀ id ∈ ahead, id ∉ S) (now seen : ℕ) :
    (decide m me (known me) (ask me) (fire me) now seen).plan = .Run := by
  have hturn : turn (ahead.map (ahead_state (known me) (ask me))) = .Run := by
    refine turn_run fun a ha => ?_
    obtain ⟨id, hid, rfl⟩ := List.mem_map.mp ha
    exact h.never_seen hme (hnone id hid)
  obtain ⟨hc, ha⟩ := h.gather_clear hme ahead.isEmpty (others m me ((known me).map (·.id)))
    { take := [], covered := false, away := false } rfl rfl
  simp only [decide, hahead, hturn, hc, ha, catch_up_waits, Bool.and_false, Bool.false_and]
  rfl

/-- Somebody of the set ahead who may run the job: the machine leaves it to them. -/
theorem AllUp.decide_skip (hme : me ∈ S)
    {ahead : List String} (hahead : ahead_of m me ((known me).map (·.id)) = some ahead)
    (hid : id ∈ ahead) (hS : id ∈ S) (hne : id ≠ me) (hmay : MayRun m id) (now seen : ℕ) :
    (decide m me (known me) (ask me) (fire me) now seen).plan = .Skip := by
  have hturn : turn (ahead.map (ahead_state (known me) (ask me))) = .Defer :=
    turn_defer (List.mem_map.mpr ⟨id, hid, h.takes hme hS hne hmay⟩)
  simp only [decide, hahead, hturn, Decision.just]

omit h

/-- The machine that comes first: the first of the list that is in the set, or with
`any` and none of them in it the lowest id. -/
def First (m : Machines) (S : Finset String) (w : String) : Prop :=
  w ∈ S ∧
    ((∃ before after, m.list = before ++ w :: after ∧ ∀ id ∈ before, id ∉ S) ∨
      (m.any = true ∧ (∀ id ∈ m.list, id ∉ S) ∧ ∀ id ∈ S, w ≤ id))

/-- Some machine that may run the job comes first. -/
theorem exists_first (hmay : ∃ id ∈ S, MayRun m id) : ∃ w, First m S w := by
  cases hf : m.list.find? (fun id => Decidable.decide (id ∈ S)) with
  | some w =>
    obtain ⟨hw, before, after, hlist, hbefore⟩ := find?_eq_some_iff_append.mp hf
    have hbefore' : ∀ id ∈ before, id ∉ S := fun id hid => by simpa using hbefore id hid
    exact ⟨w, by simpa using hw, Or.inl ⟨before, after, hlist, hbefore'⟩⟩
  | none =>
    have hlist : ∀ id ∈ m.list, id ∉ S := fun id hid => by
      simpa using find?_eq_none.mp hf id hid
    obtain ⟨x, hx, hmayx⟩ := hmay
    have hany : m.any = true := hmayx.resolve_left fun hl => hlist x hl hx
    have hne : S.Nonempty := ⟨x, hx⟩
    exact ⟨S.min' hne, S.min'_mem hne, Or.inr ⟨hany, hlist, fun id hid => S.min'_le id hid⟩⟩

/-- The machine that comes first has nobody of the set ahead of it. -/
theorem none_ahead_of_first {w : String} (hw : First m S w) (known : List String) :
    ∃ ahead, ahead_of m w known = some ahead ∧ ∀ id ∈ ahead, id ∉ S := by
  obtain ⟨hwS, ⟨before, after, hlist, hbefore⟩ | ⟨hany, hlist, hleast⟩⟩ := hw
  · exact ⟨before, ahead_of_listed _ hlist fun hin => hbefore w hin hwS, hbefore⟩
  · obtain ⟨rest, hahead, hrest⟩ :=
      ahead_of_unlisted known hany fun hin => hlist w hin hwS
    refine ⟨_, hahead, fun id hid hS => ?_⟩
    rcases mem_append.mp hid with hin | hin
    · exact hlist id hin hS
    · exact absurd (hleast id hS) (not_le.mpr ((hrest id).mp hin).2.1)

/-- Every other machine that may run the job has the first one ahead of it. -/
theorem AllUp.first_ahead_of (h : AllUp m S known ask fire) {w me : String}
    (hw : First m S w) (hme : me ∈ S) (hne : me ≠ w) (hmay : MayRun m me) :
    ∃ ahead, ahead_of m me ((known me).map (·.id)) = some ahead ∧ w ∈ ahead := by
  by_cases hin : me ∈ m.list
  · obtain ⟨before', after', hlist', hfresh⟩ := eq_append_cons_of_mem hin
    refine ⟨before', ahead_of_listed _ hlist' hfresh, ?_⟩
    obtain ⟨-, ⟨before, after, hlist, hbefore⟩ | ⟨-, hnone, -⟩⟩ := hw
    -- both cut the list where their machine stands, and `me` is not before `w`
    · rcases append_eq_append_iff.mp (hlist.symm.trans hlist') with
        ⟨mid, hbefore', hmid⟩ | ⟨mid, hbefore', hmid⟩
      · rcases cons_eq_append_iff.mp hmid with ⟨rfl, heq⟩ | ⟨tail, rfl, -⟩
        · exact absurd (List.cons.inj heq).1 hne
        · simp [hbefore']
      · rcases cons_eq_append_iff.mp hmid with ⟨rfl, heq⟩ | ⟨tail, rfl, -⟩
        · exact absurd (List.cons.inj heq).1.symm hne
        · exact absurd hme (hbefore me (by simp [hbefore']))
    · exact absurd hme (hnone me hin)
  · have hany : m.any = true := hmay.resolve_left hin
    obtain ⟨rest, hahead, hrest⟩ :=
      ahead_of_unlisted ((known me).map (·.id)) hany hin
    refine ⟨_, hahead, mem_append.mpr ?_⟩
    by_cases hwl : w ∈ m.list
    · exact Or.inl hwl
    · obtain ⟨hwS, ⟨before, after, hlist, -⟩ | ⟨-, -, hleast⟩⟩ := hw
      · exact absurd (by simp [hlist]) hwl
      · have hlt : w < me := lt_of_le_of_ne (hleast me hme) hne.symm
        exact Or.inr ((hrest w).mpr ⟨(h.knows me hme w).mpr ⟨hwS, hne.symm⟩, hlt, hwl⟩)

/-- Of machines that are all up and may run the job, exactly the one that comes first
runs an occurrence, and every other one skips it, in whatever order each of them
lists the others. -/
theorem one_machine_runs (h : AllUp m S known ask fire) (hmay : ∃ id ∈ S, MayRun m id)
    (now seen : String → ℕ) :
    ∃ w, First m S w ∧
      (decide m w (known w) (ask w) (fire w) (now w) (seen w)).plan = .Run ∧
      ∀ me ∈ S, me ≠ w →
        (decide m me (known me) (ask me) (fire me) (now me) (seen me)).plan = .Skip := by
  obtain ⟨w, hw⟩ := exists_first hmay
  obtain ⟨ahead, hahead, hnone⟩ := none_ahead_of_first hw ((known w).map (·.id))
  refine ⟨w, hw, h.decide_run hw.1 hahead hnone (now w) (seen w), fun me hme hne => ?_⟩
  by_cases hmayme : MayRun m me
  · obtain ⟨ahead', hahead', hin⟩ := h.first_ahead_of hw hme hne hmayme
    have hmayw : MayRun m w := by
      by_contra hno
      rw [ahead_of_eq_none.mpr hno] at hahead
      cases hahead
    exact h.decide_skip hme hahead' hin hw.1 hne.symm hmayw (now me) (seen me)
  · simp only [decide, ahead_of_eq_none.mpr hmayme, Decision.just]

end

/-- Three machines, two of them listed and one of those not there: the second of
the list runs the job and the machine `any` lets in does not. -/
theorem second_of_the_list_runs :
    let m : Machines := { list := ["gone", "mini"], any := true }
    let other (id : String) : Other := { id, up := true, away := 0 }
    let known (me : String) : List Other := if me = "mini" then [other "air"] else [other "mini"]
    let ask (_ _ : String) : Option Answer :=
      some { has := true, eligible := true, enabled := true, running := false, runs := [] }
    ∃ w, First m {"air", "mini"} w ∧ (decide m w (known w) (ask w) 0 0 0).plan = .Run ∧
      ∀ me ∈ ({"air", "mini"} : Finset String), me ≠ w →
        (decide m me (known me) (ask me) 0 0 0).plan = .Skip := by
  intro m other known ask
  have hup : AllUp m {"air", "mini"} known ask fun _ => 0 := ⟨?_, ?_, ?_⟩
  · exact one_machine_runs hup ⟨"air", by simp, Or.inr rfl⟩ (fun _ => 0) (fun _ => 0)
  · intro me hme id
    rcases Finset.mem_insert.mp hme with rfl | hme
    · simp [known, other]
      exact ⟨fun h => ⟨Or.inr h, by simp [h]⟩, fun h => h.1.resolve_left h.2⟩
    · obtain rfl := Finset.mem_singleton.mp hme
      simp [known, other]
      exact ⟨fun h => ⟨Or.inl h, by simp [h]⟩, fun h => h.1.resolve_right h.2⟩
  · intro me _ o ho
    simp only [known] at ho
    split_ifs at ho <;> rw [mem_singleton.mp ho]
  · intro me _ id _ _
    exact ⟨_, rfl, rfl, rfl, by simp [MayRun, m], rfl, by simp⟩

end Lpm.Jobs.Sharing
