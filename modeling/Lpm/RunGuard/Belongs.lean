/-
What a caller is told to be, over every history.

A name, a pid with a start, stands for one process only while the clock tells two holders
of a pid apart, and a chain of parents only reads as one while a parent is not younger than
its child. `Timely` says so of a history, and that the run's first pid goes to somebody else
only after the run, for a session is read by its leader's pid.
-/
import Lpm.RunGuard.Processes

set_option autoImplicit false

open Transition

namespace Lpm.RunGuard

open List Function

/-- A process does not start before its parent, a pid is given again at a later start, and
the pid of the run's first process only once the run has ended and to a process younger than
all that lived then. -/
def Timely (s : State) : Event → Prop
  | .fork parent pid start =>
    parent.start ≤ start ∧ (∀ before, s.last pid = some before → before < start) ∧
      (pid = s.mark.leader.1 → ∃ horizon, s.mark.horizon = some horizon ∧ horizon < start)
  | _ => True

/-- What goes by the number of the run's session and is not of it. -/
def Process.usurps (p : Process) (leader : ProcId) : Prop :=
  p.pid = leader.1 ∧ p.id ≠ leader ∨ p.session = leader.1 ∧ ¬p.own

structure Inv (s : State) : Prop where
  nodup : (s.processes.map (·.pid)).Nodup
  last : ∀ p ∈ s.processes, s.last p.pid = some p.start
  kin_pid : ∀ p ∈ s.processes, p.kin → 1 < p.pid
  parents : ∀ p ∈ s.processes, p.ppid ≤ 1 ∨ ∃ q ∈ s.processes, q.pid = p.ppid
  kin : ∀ p ∈ s.processes, ∀ q ∈ s.processes, p.ppid = q.pid → q.kin → p.kin ∧ q.start ≤ p.start
  leader : ∀ p ∈ s.processes, p.id = s.mark.leader → p.session = p.pid ∧ p.own ∧ p.kin
  given : ∃ before, s.last s.mark.leader.1 = some before ∧ s.mark.leader.2 ≤ before
  own : ∀ p ∈ s.processes, p.own → p.kin ∧ p.session = s.mark.leader.1 ∧
    ∀ q ∈ s.processes, q.pid = s.mark.leader.1 → q.id = s.mark.leader
  usurped : ∀ p ∈ s.processes, p.usurps s.mark.leader →
    (∀ q ∈ s.processes, q.id ≠ s.mark.leader) ∧
      ∃ horizon, s.mark.horizon = some horizon ∧ horizon < p.start
  seen : ∀ id ∈ s.mark.seen, ∃ before, s.last id.1 = some before ∧ id.2 ≤ before
  seen_kin : ∀ p ∈ s.processes, p.id ∈ s.mark.seen → p.kin
  swept : ∀ p ∈ s.processes, p.swept → p.id = s.mark.leader ∨ p.id ∈ s.mark.seen

theorem Started.inv {s : State} (h : Started s) : Inv s := by
  -- before its first fork the run is its first process alone
  have hkin : ∀ p ∈ s.processes, p.kin ∨ p.own ∨ p.session = s.mark.leader.1 ∨
      p.pid = s.mark.leader.1 → p.id = s.mark.leader := by
    intro p hp hof
    by_contra hne
    obtain ⟨hkin, hown, hsession⟩ := h.others p hp hne
    obtain ⟨q, hq, hqid⟩ := h.first
    rcases hof with hof | hof | hof | hof
    · exact hkin hof
    · exact hown hof
    · exact hsession hof
    · have heq := eq_of_pid h.nodup hp hq (by rw [hof, ← hqid]; rfl)
      exact hne (heq ▸ hqid)
  have hpid : ∀ p ∈ s.processes, p.id = s.mark.leader → p.pid = s.mark.leader.1 := by
    intro p _ hid
    rw [← hid]
    rfl
  constructor
  · exact h.nodup
  · exact h.last
  · intro p hp hk
    exact (h.leads p hp (hkin p hp (.inl hk))).1
  · exact h.parents
  · intro p hp q hq hparent hk
    have hq1 := hpid q hq (hkin q hq (.inl hk))
    exact absurd (hparent.trans hq1) (h.childless p hp)
  · intro p hp hid
    exact (h.leads p hp hid).2
  · obtain ⟨p, hp, hid⟩ := h.first
    refine ⟨p.start, ?_, ?_⟩
    · rw [← hpid p hp hid]
      exact h.last p hp
    · rw [← hid]
      exact Nat.le_refl _
  · intro p hp hown
    have hid := hkin p hp (.inr (.inl hown))
    have hleads := h.leads p hp hid
    refine ⟨hleads.2.2.2, ?_, fun q hq hq1 => hkin q hq (.inr (.inr (.inr hq1)))⟩
    rw [hleads.2.1]
    exact hpid p hp hid
  · intro p hp husurps
    rcases husurps with ⟨hp1, hne⟩ | ⟨hsession, hown⟩
    · exact absurd (hkin p hp (.inr (.inr (.inr hp1)))) hne
    · exact absurd (h.leads p hp (hkin p hp (.inr (.inr (.inl hsession))))).2.2.1 hown
  · intro id hid
    rw [h.unseen] at hid
    exact absurd hid not_mem_nil
  · intro p _ hid
    rw [h.unseen] at hid
    exact absurd hid not_mem_nil
  · intro p hp hswept
    exact absurd hswept (h.unswept p hp)

/-! ## What a sweep sees -/

section
variable {s : State}

variable (hi : Inv s)
include hi

/-- Only the run's own descendants are seen. -/
theorem Inv.noted_kin :
    ∀ id ∈ (note_descendants s.mark s.table).seen, ∃ p ∈ s.processes, p.id = id ∧ p.kin := by
  refine note_descendants_of_closed (fun hlive => ?_) (fun id hid hlive => ?_)
    (fun id hid child hchild => ?_)
  · obtain ⟨p, hp, hpid⟩ := (State.live_iff hi.nodup _).mp hlive
    exact ⟨p, hp, hpid, (hi.leader p hp hpid).2.2⟩
  · obtain ⟨p, hp, hpid⟩ := (State.live_iff hi.nodup _).mp hlive
    exact ⟨p, hp, hpid, hi.seen_kin p hp (hpid ▸ hid)⟩
  · obtain ⟨q, hq, rfl, hkin⟩ := hid
    obtain ⟨p, hp, hpid, hparent, -⟩ := State.mem_follow hchild
    exact ⟨p, hp, hpid, (hi.kin p hp q hq hparent hkin).1⟩

/-- A sweep sees whoever's chain of parents leads to the run. -/
theorem Inv.chained {p : Process} (h : Chained s.processes p) :
    p ∈ s.processes ∧ p.kin ∧
      (p.id = s.mark.leader ∨ p.id ∈ (note_descendants s.mark s.table).seen) := by
  induction h with
  | @first p hp hown hleads =>
      obtain ⟨hkin, hsession, hleader⟩ := hi.own p hp hown
      exact ⟨hp, hkin, .inl (hleader p hp (hleads.symm.trans hsession))⟩
  | @again p hp hswept =>
      have hlive := (State.live_iff hi.nodup _).mpr ⟨p, hp, rfl⟩
      rcases hi.swept p hp hswept with hid | hid
      · exact ⟨hp, (hi.leader p hp hid).2.2, .inl hid⟩
      · exact ⟨hp, hi.seen_kin p hp hid, .inr (mem_note_descendants hid hlive)⟩
  | @child q p _ hp hparent ih =>
      obtain ⟨hq, hkin, hq'⟩ := ih
      obtain ⟨hpkin, hstart⟩ := hi.kin p hp q hq hparent hkin
      have hlive := (State.live_iff hi.nodup _).mpr ⟨q, hq, rfl⟩
      refine ⟨hp, hpkin, .inr (note_descendants_closed (p := q.id) ?_
        (State.follow_of_mem hp hparent hstart))⟩
      exact hq'.imp (fun hid => ⟨hid, hlive⟩) id

/-! ## The steps keep it -/

/-- The new process is told from whoever had its pid by its start. -/
theorem Inv.fork {parent : Process} {pid start : ℕ} (hparent : parent ∈ s.processes)
    (hpid : 1 < pid) (hfree : ∀ p ∈ s.processes, p.pid ≠ pid ∧ p.session ≠ pid)
    (hstart : parent.start ≤ start) (hlast : ∀ before, s.last pid = some before → before < start)
    (hended : pid = s.mark.leader.1 →
      ∃ horizon, s.mark.horizon = some horizon ∧ horizon < start) :
    Inv (s.fork parent pid start) := by
  have hleader : (parent.fork pid start).id ≠ s.mark.leader := by
    intro hid
    obtain ⟨before, hbefore, hle⟩ := hi.given
    have h1 : pid = s.mark.leader.1 := by rw [← hid]; rfl
    have h2 : start = s.mark.leader.2 := by rw [← hid]; rfl
    have := hlast before (h1 ▸ hbefore)
    omega
  -- the last start of a pid only grows
  have hlast' : ∀ id before, s.last id = some before →
      ∃ after, Function.update s.last pid (some start) id = some after ∧ before ≤ after := by
    intro id before hbefore
    by_cases hid : id = pid
    · subst hid
      exact ⟨start, update_self _ _ _, Nat.le_of_lt (hlast before hbefore)⟩
    · exact ⟨before, by rw [update_of_ne hid]; exact hbefore, Nat.le_refl _⟩
  constructor
  · rw [State.fork, map_cons, nodup_cons]
    refine ⟨fun hmem => ?_, hi.nodup⟩
    obtain ⟨p, hp, hpp⟩ := List.mem_map.mp hmem
    exact (hfree p hp).1 hpp
  · intro p hp
    rcases mem_cons.mp hp with rfl | hp
    · exact update_self _ _ _
    · change Function.update s.last pid (some start) p.pid = some p.start
      rw [update_of_ne (hfree p hp).1]
      exact hi.last p hp
  · intro p hp hkin
    rcases mem_cons.mp hp with rfl | hp
    · exact hpid
    · exact hi.kin_pid p hp hkin
  · intro p hp
    rcases mem_cons.mp hp with rfl | hp
    · exact .inr ⟨parent, mem_cons_of_mem _ hparent, rfl⟩
    · exact (hi.parents p hp).imp_right fun ⟨q, hq, h⟩ => ⟨q, mem_cons_of_mem _ hq, h⟩
  · intro p hp q hq hppid hkin
    rcases mem_cons.mp hp with rfl | hp <;> rcases mem_cons.mp hq with rfl | hq
    · exact absurd hppid (hfree parent hparent).1
    · have heq : parent = q := eq_of_pid hi.nodup hparent hq hppid
      subst heq
      exact ⟨hkin, hstart⟩
    -- nobody had the new pid for a parent
    · rcases hi.parents p hp with h | ⟨q, hq, h⟩
      · have hp1 : p.ppid = pid := hppid
        omega
      · exact absurd (h.trans hppid) (hfree q hq).1
    · exact hi.kin p hp q hq hppid hkin
  · intro p hp hid
    rcases mem_cons.mp hp with rfl | hp
    · exact absurd hid hleader
    · exact hi.leader p hp hid
  · obtain ⟨before, hbefore, hle⟩ := hi.given
    obtain ⟨after, hafter, hle'⟩ := hlast' _ _ hbefore
    exact ⟨after, hafter, Nat.le_trans hle hle'⟩
  · intro p hp hown
    -- the child takes after its parent in all but its pid
    have hold : ∃ q ∈ s.processes, q.own ∧ q.kin = p.kin ∧ q.session = p.session := by
      rcases mem_cons.mp hp with rfl | hp
      · exact ⟨parent, hparent, hown, rfl, rfl⟩
      · exact ⟨p, hp, hown, rfl, rfl⟩
    obtain ⟨q, hq, hqown, hqkin, hqsession⟩ := hold
    obtain ⟨hkin, hsession, hleads⟩ := hi.own q hq hqown
    refine ⟨hqkin ▸ hkin, hqsession ▸ hsession, fun r hr hr1 => ?_⟩
    rcases mem_cons.mp hr with rfl | hr
    · exact absurd (hsession.trans hr1.symm) (hfree q hq).2
    · exact hleads r hr hr1
  · intro p hp husurps
    have hold : (∀ q ∈ s.processes, q.id ≠ s.mark.leader) ∧
        ∃ horizon, s.mark.horizon = some horizon ∧ horizon < p.start := by
      rcases mem_cons.mp hp with rfl | hp
      -- it has the leader's pid, or its parent's session
      · rcases husurps with ⟨hp1, -⟩ | hsession
        · refine ⟨fun q hq hid => ?_, hended hp1⟩
          have hq1 : q.pid = s.mark.leader.1 := by rw [← hid]; rfl
          exact (hfree q hq).1 (hq1.trans hp1.symm)
        · obtain ⟨hnone, horizon, hh, hlt⟩ := hi.usurped parent hparent (.inr hsession)
          exact ⟨hnone, horizon, hh, Nat.lt_of_lt_of_le hlt hstart⟩
      · exact hi.usurped p hp husurps
    refine ⟨fun q hq => ?_, hold.2⟩
    rcases mem_cons.mp hq with rfl | hq
    · exact hleader
    · exact hold.1 q hq
  · intro id hid
    obtain ⟨before, hbefore, hle⟩ := hi.seen id hid
    obtain ⟨after, hafter, hle'⟩ := hlast' _ _ hbefore
    exact ⟨after, hafter, Nat.le_trans hle hle'⟩
  · intro p hp hid
    rcases mem_cons.mp hp with rfl | hp
    · obtain ⟨before, hbefore, hle⟩ := hi.seen _ hid
      have hlt := hlast before hbefore
      exact absurd hle (Nat.not_le.mpr hlt)
    · exact hi.seen_kin p hp hid
  · intro p hp hswept
    rcases mem_cons.mp hp with rfl | hp
    · exact hswept.elim
    · exact hi.swept p hp hswept

/-- Init is nobody's child of the run, so the orphans are not either. -/
theorem Inv.exit (x : Process) : Inv (s.exit x) := by
  -- who is left was there, and is init's if its parent is the one that went
  have hmem : ∀ p ∈ (s.exit x).processes,
      ∃ q ∈ s.processes, q.pid ≠ x.pid ∧ Process.orphan x.pid q = p := by
    intro p hp
    obtain ⟨q, hq, heq⟩ := List.mem_map.mp hp
    rw [mem_filter, decide_eq_true_eq] at hq
    exact ⟨q, hq.1, hq.2, heq⟩
  constructor
  · rw [State.exit, List.map_map]
    exact hi.nodup.sublist (filter_sublist.map _)
  · intro p' hp'
    obtain ⟨p, hp, -, rfl⟩ := hmem p' hp'
    exact hi.last p hp
  · intro p' hp'
    obtain ⟨p, hp, -, rfl⟩ := hmem p' hp'
    exact hi.kin_pid p hp
  · intro p' hp'
    obtain ⟨p, hp, -, rfl⟩ := hmem p' hp'
    by_cases hgone : p.ppid = x.pid
    · exact .inl (Nat.le_of_eq (if_pos hgone))
    · have hppid : (Process.orphan x.pid p).ppid = p.ppid := if_neg hgone
      rw [hppid]
      refine (hi.parents p hp).imp_right fun ⟨q, hq, h⟩ => ?_
      refine ⟨Process.orphan x.pid q, List.mem_map.mpr ⟨q, ?_, rfl⟩, h⟩
      exact mem_filter.mpr ⟨hq, decide_eq_true (fun hqg => hgone (h.symm.trans hqg))⟩
  · intro p' hp' q' hq' hparent hkin
    obtain ⟨p, hp, -, rfl⟩ := hmem p' hp'
    obtain ⟨q, hq, -, rfl⟩ := hmem q' hq'
    by_cases hgone : p.ppid = x.pid
    -- init is none of the run's
    · have h1 : 1 = q.pid := (if_pos hgone).symm.trans hparent
      have := hi.kin_pid q hq hkin
      omega
    · exact hi.kin p hp q hq ((if_neg hgone).symm.trans hparent) hkin
  · intro p' hp'
    obtain ⟨p, hp, -, rfl⟩ := hmem p' hp'
    exact hi.leader p hp
  · exact hi.given
  · intro p' hp' hown
    obtain ⟨p, hp, -, rfl⟩ := hmem p' hp'
    refine (hi.own p hp hown).imp_right fun h => ⟨h.1, fun q' hq' hq1 => ?_⟩
    obtain ⟨q, hq, -, rfl⟩ := hmem q' hq'
    exact h.2 q hq hq1
  · intro p' hp' husurps
    obtain ⟨p, hp, -, rfl⟩ := hmem p' hp'
    obtain ⟨hnone, hended⟩ := hi.usurped p hp husurps
    refine ⟨fun q' hq' => ?_, hended⟩
    obtain ⟨q, hq, -, rfl⟩ := hmem q' hq'
    exact hnone q hq
  · exact hi.seen
  · intro p' hp'
    obtain ⟨p, hp, -, rfl⟩ := hmem p' hp'
    exact hi.seen_kin p hp
  · intro p' hp'
    obtain ⟨p, hp, -, rfl⟩ := hmem p' hp'
    exact hi.swept p hp

/-- Only a process that leads no session makes one, so the run's first process does not. -/
theorem Inv.setsid {x : Process} (hx : x ∈ s.processes) (hleads : x.session ≠ x.pid) :
    Inv (s.setsid x) := by
  -- the run's first process leads a session already
  have hfirst : ∀ p ∈ s.processes, p.id = s.mark.leader → p.pid ≠ x.pid := by
    intro p hp hid hpx
    have heq := eq_of_pid hi.nodup hp hx hpx
    subst heq
    exact hleads (hi.leader p hp hid).1
  -- a new session does not bear the run's name
  have husurps : ∀ p ∈ s.processes, (Process.lead x.pid p).usurps s.mark.leader →
      p.usurps s.mark.leader := by
    rintro p hp (h | ⟨hsession, hown⟩)
    · exact .inl h
    · by_cases hpx : p.pid = x.pid
      · refine .inl ⟨(if_pos hpx).symm.trans hsession, fun hid => hfirst p hp hid hpx⟩
      · exact .inr ⟨(if_neg hpx).symm.trans hsession, fun h => hown ⟨hpx, h⟩⟩
  constructor
  · rw [State.setsid, List.map_map]
    exact hi.nodup
  · exact List.forall_mem_map.mpr hi.last
  · exact List.forall_mem_map.mpr hi.kin_pid
  · intro p' hp'
    obtain ⟨p, hp, rfl⟩ := List.mem_map.mp hp'
    exact (hi.parents p hp).imp_right fun ⟨q, hq, h⟩ =>
      ⟨Process.lead x.pid q, List.mem_map.mpr ⟨q, hq, rfl⟩, h⟩
  · intro p' hp' q' hq'
    obtain ⟨p, hp, rfl⟩ := List.mem_map.mp hp'
    obtain ⟨q, hq, rfl⟩ := List.mem_map.mp hq'
    exact hi.kin p hp q hq
  · intro p' hp' hid
    obtain ⟨p, hp, rfl⟩ := List.mem_map.mp hp'
    obtain ⟨hsession, hown, hkin⟩ := hi.leader p hp hid
    have hpx := hfirst p hp hid
    exact ⟨(if_neg hpx).trans hsession, ⟨hpx, hown⟩, hkin⟩
  · exact hi.given
  · intro p' hp' hown
    obtain ⟨p, hp, rfl⟩ := List.mem_map.mp hp'
    obtain ⟨hkin, hsession, hleader⟩ := hi.own p hp hown.2
    refine ⟨hkin, (if_neg hown.1).trans hsession, fun q' hq' hq1 => ?_⟩
    obtain ⟨q, hq, rfl⟩ := List.mem_map.mp hq'
    exact hleader q hq hq1
  · intro p' hp' h
    obtain ⟨p, hp, rfl⟩ := List.mem_map.mp hp'
    obtain ⟨hnone, hended⟩ := hi.usurped p hp (husurps p hp h)
    refine ⟨fun q' hq' => ?_, hended⟩
    obtain ⟨q, hq, rfl⟩ := List.mem_map.mp hq'
    exact hnone q hq
  · exact hi.seen
  · exact List.forall_mem_map.mpr hi.seen_kin
  · exact List.forall_mem_map.mpr hi.swept

theorem Inv.record (hrunning : s.mark.horizon = none) (ending : Bool) :
    Inv (s.record ending) := by
  have hleader : (s.record ending).mark.leader = s.mark.leader :=
    record_leader s.mark s.table ending
  have hseen : (s.record ending).mark.seen = (note_descendants s.mark s.table).seen :=
    record_seen s.mark s.table ending
  constructor
  · rw [State.record, List.map_map]
    exact hi.nodup
  · exact List.forall_mem_map.mpr hi.last
  · exact List.forall_mem_map.mpr hi.kin_pid
  · intro p' hp'
    obtain ⟨p, hp, rfl⟩ := List.mem_map.mp hp'
    exact (hi.parents p hp).imp_right fun ⟨q, hq, h⟩ =>
      ⟨Process.sweep s.processes q, List.mem_map.mpr ⟨q, hq, rfl⟩, h⟩
  · intro p' hp' q' hq'
    obtain ⟨p, hp, rfl⟩ := List.mem_map.mp hp'
    obtain ⟨q, hq, rfl⟩ := List.mem_map.mp hq'
    exact hi.kin p hp q hq
  · intro p' hp' hid
    obtain ⟨p, hp, rfl⟩ := List.mem_map.mp hp'
    exact hi.leader p hp (hid.trans hleader)
  · rw [hleader]
    exact hi.given
  · intro p' hp' hown
    obtain ⟨p, hp, rfl⟩ := List.mem_map.mp hp'
    rw [hleader]
    refine (hi.own p hp hown).imp_right fun h => ⟨h.1, fun q' hq' hq1 => ?_⟩
    obtain ⟨q, hq, rfl⟩ := List.mem_map.mp hq'
    exact h.2 q hq hq1
  -- nobody does before the run has ended
  · intro p' hp' h
    obtain ⟨p, hp, rfl⟩ := List.mem_map.mp hp'
    rw [hleader] at h
    obtain ⟨-, horizon, hh, -⟩ := hi.usurped p hp h
    exact absurd (hrunning.symm.trans hh) (Option.some_ne_none horizon).symm
  · intro id hid
    rw [hseen] at hid
    obtain ⟨p, hp, rfl, -⟩ := hi.noted_kin id hid
    exact ⟨p.start, hi.last p hp, Nat.le_refl _⟩
  · intro p' hp' hid
    obtain ⟨p, hp, rfl⟩ := List.mem_map.mp hp'
    rw [hseen] at hid
    obtain ⟨q, hq, hqid, hkin⟩ := hi.noted_kin _ hid
    have heq : q = p := eq_of_pid hi.nodup hq hp (congrArg Prod.fst hqid)
    exact heq ▸ hkin
  · intro p' hp' hswept
    obtain ⟨p, hp, rfl⟩ := List.mem_map.mp hp'
    rw [hleader, hseen]
    rcases hswept with hswept | hchained
    · exact (hi.chained (.again hp hswept)).2.2
    · exact (hi.chained hchained).2.2

theorem Inv.step (e : Event) (s' : State) (h : Timely s e ∧ RunGuard.step s e s') :
    Inv s' := by
  obtain ⟨htimely, hstep⟩ := h
  cases e with
  | fork parent pid start =>
      obtain ⟨hparent, hpid, hfree, -, rfl⟩ := hstep
      exact hi.fork hparent hpid hfree htimely.1 htimely.2.1 htimely.2.2
  | exec p =>
      obtain ⟨-, rfl⟩ := hstep
      exact hi
  | exit p =>
      obtain ⟨-, -, rfl⟩ := hstep
      exact hi.exit p
  | setsid p =>
      obtain ⟨hp, hleads, rfl⟩ := hstep
      exact hi.setsid hp hleads
  | sweep =>
      obtain ⟨hrunning, rfl⟩ := hstep
      exact hi.record hrunning false
  | finish =>
      obtain ⟨hrunning, rfl⟩ := hstep
      exact hi.record hrunning true

/-! ## What a caller is told -/

theorem Inv.belongs_eq {p : Process} (hp : p ∈ s.processes) :
    s.belongs p = ((decide (s.mark.leader.1 = p.session)
        && ours s.mark s.table s.alive p.session p.start)
      || climb s.table [s.mark] MAX_DEPTH p.pid p.start) := by
  rw [State.belongs, RunGuard.belongs, State.get_of_mem hi.nodup hp]
  by_cases hsession : s.mark.leader.1 = p.session
  · simp [List.filter, hsession]
  · simp [List.filter, hsession]

/-- The run's own number is still the first process's, or nobody's. -/
theorem Inv.ours_of_own {p : Process} (hp : p ∈ s.processes) (hown : p.own)
    (hstart : (∃ q ∈ s.processes, q.id = s.mark.leader) ∨
      ∀ horizon, s.mark.horizon = some horizon → p.start ≤ horizon) :
    ours s.mark s.table s.alive p.session p.start = true := by
  obtain ⟨-, hsession, hleader⟩ := hi.own p hp hown
  rw [hsession, ours.eq_def]
  cases hget : s.table.get s.mark.leader.1 with
  | some row =>
      obtain ⟨q, hq, hpid, -, hqstart⟩ := State.of_get hget
      have hid := hleader q hq hpid
      simp only [decide_eq_true_eq]
      rw [← hqstart, ← hid]
      rfl
  | none =>
      have hgone : ∀ q ∈ s.processes, q.pid ≠ s.mark.leader.1 := by
        intro q hq hpid
        rw [← hpid, State.get_of_mem hi.nodup hq] at hget
        exact absurd hget (Option.some_ne_none _)
      have halive : s.alive s.mark.leader.1 = false := by
        rw [State.alive, List.any_eq_false]
        intro q hq
        simpa using hgone q hq
      simp only [halive, Bool.false_eq_true, if_false]
      rcases hstart with ⟨q, hq, hid⟩ | hstart
      · exact absurd (by rw [← hid]; rfl) (hgone q hq)
      · rw [Option.all_eq_true]
        intro horizon hh
        exact decide_eq_true (hstart horizon hh)

/-- Whoever goes by the number of the run's session is not taken for it. -/
theorem Inv.not_ours {p : Process} (hp : p ∈ s.processes)
    (husurps : p.usurps s.mark.leader) (hsession : p.session = s.mark.leader.1) :
    ours s.mark s.table s.alive p.session p.start = false := by
  obtain ⟨hnone, horizon, hh, hlt⟩ := hi.usurped p hp husurps
  rw [hsession, ours.eq_def]
  cases hget : s.table.get s.mark.leader.1 with
  | some row =>
      obtain ⟨q, hq, hpid, -, hqstart⟩ := State.of_get hget
      simp only [decide_eq_false_iff_not]
      intro hstart
      exact hnone q hq (Prod.ext hpid (hqstart.trans hstart))
  | none =>
      by_cases halive : s.alive s.mark.leader.1 = true
      · simp [halive]
      · simp [halive, hh, hlt]

/-- The walk up from a stranger meets strangers. -/
theorem Inv.climb_stranger (depth : ℕ) : ∀ p ∈ s.processes, ¬p.kin →
    climb s.table [s.mark] depth p.pid p.start = false := by
  induction depth with
  | zero =>
      intro p _ _
      rfl
  | succ depth ih =>
      intro p hp hkin
      have hleader : ¬s.mark.leader = (p.pid, p.start) := fun hid =>
        hkin (hi.leader p hp hid.symm).2.2
      have hseen : (p.pid, p.start) ∉ s.mark.seen := fun hid => hkin (hi.seen_kin p hp hid)
      rw [climb, State.get_of_mem hi.nodup hp]
      simp only [any_cons, any_nil, hleader, hseen, contains_eq_mem, decide_false,
        Bool.or_self, Bool.false_eq_true, if_false]
      by_cases htop : p.ppid ≤ 1 ∨ p.ppid = p.pid
      · rw [if_pos htop]
      · rw [if_neg htop]
        cases hget : s.table.get p.ppid with
        | none => rfl
        | some row =>
            obtain ⟨q, hq, hpid, -, hstart⟩ := State.of_get hget
            have hqkin : ¬q.kin := fun h => hkin (hi.kin p hp q hq hpid.symm h).1
            have hrec := ih q hq hqkin
            rw [hpid, hstart] at hrec
            simp only
            by_cases hyoung : row.2 > p.start
            · rw [if_pos hyoung]
            · rw [if_neg hyoung]
              exact hrec

end

/-- What the socket is told of a process: that it belongs when it is of the run's own
session and the run's first process lives, or the run has not ended, or it was not younger
than all that lived then; that it belongs when its parents up to the run were seen; that it
does not when it does not descend from the run's first process. -/
theorem told_apart {s : State} (h : Reachable (processes.when Timely) s) :
    ∀ p ∈ s.processes,
      (p.own → ((∃ q ∈ s.processes, q.id = s.mark.leader) ∨
          ∀ horizon, s.mark.horizon = some horizon → p.start ≤ horizon) → s.belongs p = true) ∧
      (p.swept → s.belongs p = true) ∧
      (¬p.kin → s.belongs p = false) := by
  have hi : Inv s := by
    refine Reachable.invariant ?_ ?_ h
    · intro s hs
      exact Started.inv hs
    · intro s e s' hi hstep
      exact hi.step e s' hstep
  intro p hp
  rw [hi.belongs_eq hp]
  refine ⟨fun hown hstart => ?_, fun hswept => ?_, fun hkin => ?_⟩
  · have hsession := (hi.own p hp hown).2.1
    rw [hi.ours_of_own hp hown hstart, hsession]
    simp
  · have hclimb : climb s.table [s.mark] MAX_DEPTH p.pid p.start = true := by
      rw [MAX_DEPTH, climb, if_pos]
      have hid := hi.swept p hp hswept
      rw [any_cons, any_nil, Bool.or_false, Bool.or_eq_true]
      refine hid.imp (fun h => decide_eq_true h.symm) (fun h => ?_)
      rw [contains_eq_mem]
      exact decide_eq_true h
    rw [hclimb, Bool.or_true]
  · rw [hi.climb_stranger MAX_DEPTH p hp hkin, Bool.or_false, Bool.and_eq_false_imp]
    intro hsession
    rw [decide_eq_true_eq] at hsession
    have hown : ¬p.own := fun h => hkin (hi.own p hp h).1
    exact hi.not_ours hp (.inr ⟨hsession.symm, hown⟩) hsession.symm

/-! ## A run that has just started on a computer with init alone -/

def init_process : Process :=
  { pid := 1, ppid := 0, start := 0, session := 1, kin := False, own := False, swept := False }

def first_process : Process :=
  { pid := 100, ppid := 1, start := 5, session := 100, kin := True, own := True, swept := False }

def start_state : State :=
  { processes := [first_process, init_process]
    mark := { leader := (100, 5), seen := [], horizon := none }
    last := fun pid => if pid = 1 then some 0 else if pid = 100 then some 5 else none }

theorem start_state_started : Started start_state := by
  have hall : ∀ {P : Process → Prop}, P first_process → P init_process →
      ∀ p ∈ start_state.processes, P p := by
    intro P h1 h2 p hp
    rcases mem_cons.mp hp with rfl | hp
    · exact h1
    · rw [mem_singleton.mp hp]
      exact h2
  constructor
  · decide
  · exact ⟨first_process, mem_cons_self, rfl⟩
  · exact hall (fun _ => ⟨by decide, rfl, trivial, trivial⟩) (fun h => absurd h (by decide))
  · exact hall (fun h => absurd rfl h) (fun _ => ⟨id, id, by decide⟩)
  · exact hall (by decide) (by decide)
  · exact hall (.inl (by decide)) (.inl (by decide))
  · exact hall id id
  · exact hall rfl rfl
  · rfl
  · rfl

/-- The first process starts another, which makes a session of its own before a sweep. -/
def detached_state : State :=
  ((start_state.fork first_process 200 6).setsid (first_process.fork 200 6)).record false

theorem detached_state_reached : Reachable (processes.when Timely) detached_state := by
  have h1 : Reachable (processes.when Timely) (start_state.fork first_process 200 6) := by
    refine .next (a := Event.fork first_process 200 6) (.start start_state_started)
      ⟨⟨by decide, by simp [start_state], by simp [start_state]⟩, mem_cons_self, by decide,
        ?_, by simp [start_state], rfl⟩
    simp [start_state, first_process, init_process]
  have h2 : Reachable (processes.when Timely)
      ((start_state.fork first_process 200 6).setsid (first_process.fork 200 6)) :=
    .next (a := Event.setsid (first_process.fork 200 6)) h1
      ⟨trivial, mem_cons_self, by decide, rfl⟩
  exact .next (a := Event.sweep) h2 ⟨trivial, rfl, rfl⟩

theorem told_apart_detached :
    Reachable (processes.when Timely) detached_state ∧
      ∃ p ∈ detached_state.processes, p.pid = 200 ∧ detached_state.belongs p = true := by
  refine ⟨detached_state_reached, _, mem_cons_self, rfl, ?_⟩
  refine (told_apart detached_state_reached _ mem_cons_self).2.1 (.inr ?_)
  -- its parent is the run's first process
  refine .child (.first (p := Process.lead 200 first_process) (mem_cons_of_mem _ mem_cons_self)
    ⟨by decide, trivial⟩ rfl) mem_cons_self rfl

/-! ## What each of the conditions is for -/

/-- The first process leaves one behind in its session, which starts another after the run. -/
def late_state : State :=
  let s := (start_state.fork first_process 200 6).exit first_process
  (s.record true).fork
    (Process.sweep s.processes (Process.orphan 100 (first_process.fork 200 6))) 300 7

/-- The clock goes back, the first process starts another, and that makes a session of its
own before a sweep. -/
def back_state : State :=
  ((start_state.fork first_process 200 3).setsid (first_process.fork 200 3)).record false

/-- The first process exits, and its pid is given again within the clock's grain. -/
def grain_state : State := (start_state.exit first_process).fork init_process 100 5

/-- The first process exits, and before the watch is dropped its pid goes to one that makes
a session, starts another and exits. -/
def usurped_state : State :=
  let p := init_process.fork 100 9
  ((((start_state.exit first_process).fork init_process 100 9).setsid p).fork
    (Process.lead 100 p) 300 10).exit (Process.lead 100 p)

theorem exited_reached : Reachable processes (start_state.exit first_process) :=
  .next (a := Event.exit first_process) (.start start_state_started)
    ⟨mem_cons_self, by decide, rfl⟩

theorem forked_reached (start : ℕ) : Reachable processes (start_state.fork first_process 200 start) := by
  refine .next (a := Event.fork first_process 200 start) (.start start_state_started)
    ⟨mem_cons_self, by decide, ?_, by simp [start_state], rfl⟩
  simp [start_state, first_process, init_process]

theorem reused_reached (start : ℕ) (hstart : 5 ≤ start) :
    Reachable processes ((start_state.exit first_process).fork init_process 100 start) := by
  refine .next (a := Event.fork init_process 100 start) exited_reached
    ⟨mem_cons_self, by decide, ?_, ?_, rfl⟩
  · intro p hp
    rw [show p = init_process from mem_singleton.mp hp]
    decide
  · simp [State.exit, start_state, hstart]

/-- A late starter of the run's session, a child older than its parent, a pid given again
within the clock's grain, and a session led by the run's pid a second time. -/
theorem told_apart_fails :
    (Reachable processes late_state ∧
      ∃ p ∈ late_state.processes, p.own ∧ late_state.belongs p = false) ∧
    (Reachable processes back_state ∧
      ∃ p ∈ back_state.processes, p.swept ∧ back_state.belongs p = false) ∧
    (Reachable processes grain_state ∧
      ∃ p ∈ grain_state.processes, ¬p.kin ∧ grain_state.belongs p = true) ∧
    Reachable processes usurped_state ∧
      ∃ p ∈ usurped_state.processes, ¬p.kin ∧ usurped_state.belongs p = true := by
  -- the runs to the four states
  refine ⟨⟨?_, _, mem_cons_self, ?_, by decide⟩, ⟨?_, _, mem_cons_self, .inr ?_, by decide⟩,
    ⟨reused_reached 5 (Nat.le_refl _), _, mem_cons_self, id, by decide⟩,
    ⟨?_, _, mem_cons_self, id, by decide⟩⟩
  · have h1 : Reachable processes ((start_state.fork first_process 200 6).exit first_process) :=
      .next (a := Event.exit first_process) (forked_reached 6)
        ⟨mem_cons_of_mem _ mem_cons_self, by decide, rfl⟩
    have h2 : Reachable processes
        (((start_state.fork first_process 200 6).exit first_process).record true) :=
      .next (a := Event.finish) h1 ⟨rfl, rfl⟩
    refine .next (a := Event.fork _ 300 7) h2 ⟨mem_cons_self, by decide, ?_, ?_, rfl⟩
    · intro p hp
      rcases mem_cons.mp hp with rfl | hp
      · exact ⟨by decide, by decide⟩
      · rw [mem_singleton.mp hp]
        exact ⟨by decide, by decide⟩
    · simp [State.record, State.exit, State.fork, start_state]
  · exact trivial
  · have h1 : Reachable processes
        ((start_state.fork first_process 200 3).setsid (first_process.fork 200 3)) :=
      .next (a := Event.setsid (first_process.fork 200 3)) (forked_reached 3)
        ⟨mem_cons_self, by decide, rfl⟩
    exact .next (a := Event.sweep) h1 ⟨rfl, rfl⟩
  · exact .child (.first (p := Process.lead 200 first_process)
      (mem_cons_of_mem _ mem_cons_self) ⟨by decide, trivial⟩ rfl) mem_cons_self rfl
  · have h1 : Reachable processes (((start_state.exit first_process).fork init_process 100 9).setsid
        (init_process.fork 100 9)) :=
      .next (a := Event.setsid (init_process.fork 100 9)) (reused_reached 9 (by decide))
        ⟨mem_cons_self, by decide, rfl⟩
    refine .next (a := Event.exit (Process.lead 100 (init_process.fork 100 9)))
      (.next (a := Event.fork (Process.lead 100 (init_process.fork 100 9)) 300 10) h1
        ⟨mem_cons_self, by decide, ?_, ?_, rfl⟩)
      ⟨mem_cons_of_mem _ mem_cons_self, by decide, rfl⟩
    · intro p hp
      rcases mem_cons.mp hp with rfl | hp
      · exact ⟨by decide, by decide⟩
      · rw [mem_singleton.mp hp]
        exact ⟨by decide, by decide⟩
    · simp [State.setsid, State.exit, State.fork, start_state]

end Lpm.RunGuard
