/-
Who gets the next free seat (`tick` of `jobs.rs`).

A tick lists the jobs that are due, longest-waiting first, and goes through the list: a job
whose turn it is starts when fewer runs are under way than may be, and is held back for
capacity otherwise. Runs start and end between the turns of that loop as well as between
ticks. A scan reads each job's state on its own, so it is one step here.

`held` is the account of the jobs that were held back for capacity and have not run since.
The order of the list puts them where they belong as long as no further fire point of theirs
has passed, and the loop keeps it as long as no seat comes free behind one it held back
(`Undisturbed`). `Line` is what then holds of every state: who is held and due either still
stands in the list, counted as waiting since it came due, or was held back in this very tick,
with every seat taken since.
-/
import Lpm.Jobs.Machines
import Lpm.Jobs.Owed
import Lpm.Lib.SortedList
import Lpm.Lib.Transition

set_option autoImplicit false

open StableSort Transition

namespace Lpm.Jobs

open List

variable {ι : Type}

/-- What the scheduler works on. -/
structure Automations (ι : Type) where
  last_run_at : ι → Option ℕ
  on : ι → Bool
  inflight : Finset ι
  active_runs : Finset ι
  /-- Runs held up on a question. -/
  blocked : Finset ι
  /-- The tick under way, or the last one: how many runs there may be, when it was, the rest of
  the list it goes through with how long each has waited, the jobs it read and their last
  runs, and whether it has held one back. -/
  cap : ℕ
  now : ℕ
  queue : List (ι × ℕ)
  jobs : List ι
  seen : ι → Option ℕ
  waits : Bool
  /-- Held back for capacity, and not run or passed over since. -/
  held : Finset ι

inductive JobEvent (ι : Type) where
  /-- A tick reads the jobs of a list, with the clock later at `clock` where it anchors one. -/
  | tick (jobs : List ι) (cap now clock : ℕ)
  /-- The tick's loop goes on to the next job, and the machines sharing it decide. -/
  | next (plan : Sharing.Plan)
  /-- A run is started by hand. -/
  | run_now (id : ι)
  /-- A pipeline hands over to an agent, and the pipeline or the agent ends. -/
  | agent_started (id : ι)
  | pipeline_ended (id : ι)
  | agent_ended (id : ι)
  | asked (id : ι)
  | answered (id : ι)
  /-- A run is recorded, here or from another machine. -/
  | recorded (id : ι) («at» : ℕ)
  | switched (id : ι) (on : Bool)

section
variable [DecidableEq ι]

/-- `under_way`. -/
def Automations.under_way (s : Automations ι) : ℕ :=
  ((s.inflight ∪ s.active_runs) \ s.blocked).card

variable (offset : ℤ) (job : ι → Job) (s : Automations ι)

/-- The list of a tick: who is due and for how long, longest-waiting first. -/
def due_list (jobs : List ι) (now : ℕ) :
    List (ι × ℕ) :=
  sortBy (fun e => OrderDual.toDual e.2)
    (jobs.filterMap fun id =>
      (overdue_by offset (job id) (s.last_run_at id) (s.on id) now).map fun waited => (id, waited))

/-- One thing that happens. The loop of a tick is done before the next one; a clock is a
signed number of seconds. -/
def Automations.step :
    JobEvent ι → Option (Automations ι)
  | .tick jobs cap now clock =>
    if s.queue = [] ∧ now < 2 ^ 63 then
      let queue := due_list offset job s jobs now
      some { s with
        last_run_at := fun id =>
          if id ∈ jobs then some ((s.last_run_at id).getD clock) else s.last_run_at id
        cap := max cap 1, now, queue, jobs, seen := s.last_run_at, waits := false }
    else none
  | .next plan =>
    match s.queue with
    | [] => none
    | (id, _) :: queue =>
      if plan ≠ .Run then some { s with queue, held := s.held.erase id }
      else if s.cap ≤ s.under_way then
        some { s with queue, held := insert id s.held, waits := true }
      else some { s with queue, held := s.held.erase id, inflight := insert id s.inflight }
  | .run_now id => some { s with inflight := insert id s.inflight }
  | .agent_started id => some { s with active_runs := insert id s.active_runs }
  | .pipeline_ended id => some { s with inflight := s.inflight.erase id }
  | .agent_ended id => some { s with active_runs := s.active_runs.erase id }
  | .asked id => some { s with blocked := insert id s.blocked }
  | .answered id => some { s with blocked := s.blocked.erase id }
  | .recorded id «at» => some { s with
      last_run_at := Function.update s.last_run_at id (some «at»), held := s.held.erase id }
  | .switched id on => some { s with
      on := Function.update s.on id on, held := s.held.erase id }

/-- Every run of the scheduler, from any state of its jobs in which nobody was held back. -/
def scheduler : System (Automations ι) (JobEvent ι) where
  init s := s.queue = [] ∧ s.jobs = [] ∧ s.waits = false ∧ s.held = ∅
  step s e s' := s.step offset job e = some s'

/-- A job that the tick read is on and due by the last run it read of it. -/
def Automations.Due (id : ι) (last : ℕ) : Prop :=
  id ∈ s.jobs ∧ s.on id = true ∧ s.seen id = some last ∧
    is_due (job id).schedule offset last s.now (job id).seed = true

/-- Nobody who is due and was held back for capacity is overtaken: where a seat is free, the
next in the list came due no later. -/
def FirstCome : Prop :=
  ∀ next waited queue, s.queue = (next, waited) :: queue → s.under_way < s.cap →
    ∀ id ∈ s.held, ∀ last last' t t', s.Due offset job id last → s.seen next = some last' →
      CameDue offset (job id) last t → CameDue offset (job next) last' t' → t' ≤ t

/-- No seat is free in a loop that has held a job back. -/
def Seated : Prop := s.queue = [] ∨ s.waits = false ∨ s.cap ≤ s.under_way

/-- What keeps the order: no further fire point of a job passes while it is held back, and no
seat comes free in a loop that has held a job back. (Of a fire point before 1970 the sums of
the scheduler go round the end of a `u64`.) -/
def Undisturbed : JobEvent ι → Prop
  | .tick jobs _ now _ => ∀ id ∈ jobs, AfterEpoch offset (job id) now ∧
      (id ∈ s.held → ∀ last, s.last_run_at id = some last → Once offset (job id) last now)
  | .pipeline_ended id => Seated { s with inflight := s.inflight.erase id }
  | .agent_ended id => Seated { s with active_runs := s.active_runs.erase id }
  | .asked id => Seated { s with blocked := insert id s.blocked }
  | _ => True

/-! ## What holds of the list -/

structure Line (offset : ℤ) (job : ι → Job) (s : Automations ι) : Prop where
  sorted : s.queue.Pairwise fun a b => b.2 ≤ a.2
  stands : ∀ id ∈ s.held, ∀ last, s.Due offset job id last →
    id ∈ s.queue.map Prod.fst ∨ s.waits = true
  seated : Seated s
  counted : ∀ e ∈ s.queue, ∀ last t, s.seen e.1 = some last → CameDue offset (job e.1) last t →
    t ≤ s.now ∧ e.2 ≤ s.now - t ∧ (e.1 ∈ s.held → s.waits = true ∨ e.2 = s.now - t)

variable {offset : ℤ} {job : ι → Job} {s s' : Automations ι}

/-- Where the list is in order and a seat is free, who is next is not before its time. -/
theorem Line.first_come (h : Line offset job s) : FirstCome offset job s := by
  intro next waited queue hqueue hfree id hheld last last' t t' hdue hseen' hcame hcame'
  have hwaits : s.waits = false := by
    rcases h.seated with hnil | hwaits | hfull
    · rw [hqueue] at hnil
      exact absurd hnil (by simp)
    · exact hwaits
    · omega
  have hmem : id ∈ s.queue.map Prod.fst := by
    rcases h.stands id hheld last hdue with hmem | hwaits'
    · exact hmem
    · rw [hwaits] at hwaits'
      exact absurd hwaits' (by decide)
  obtain ⟨⟨id', w⟩, he, rfl⟩ := List.mem_map.mp hmem
  obtain ⟨ht, -, hexact⟩ := h.counted _ he last t hdue.2.2.1 hcame
  obtain ⟨ht', hle, -⟩ := h.counted (next, waited) (by rw [hqueue]; exact mem_cons_self)
    last' t' hseen' hcame'
  have heq : w = s.now - t := by
    rcases hexact hheld with hwaits' | heq
    · rw [hwaits] at hwaits'
      exact absurd hwaits' (by decide)
    · exact heq
  have hsorted := h.sorted
  rw [hqueue] at he hsorted
  have hlonger : w ≤ waited := by
    rcases mem_cons.mp he with heq | hin
    · rw [(Prod.mk.inj heq).2]
    · exact (pairwise_cons.mp hsorted).1 _ hin
  dsimp only at hle
  omega

/-- What happens outside of the list and the account leaves them in order. -/
theorem Line.aside (h : Line offset job s) (hqueue : s'.queue = s.queue) (hjobs : s'.jobs = s.jobs)
    (hseen : s'.seen = s.seen) (hnow : s'.now = s.now) (hwaits : s'.waits = s.waits)
    (hheld : s'.held ⊆ s.held) (hon : ∀ id ∈ s'.held, s'.on id = s.on id) (hseated : Seated s') :
    Line offset job s' := by
  refine ⟨by rw [hqueue]; exact h.sorted, ?_, hseated, ?_⟩
  · rw [hqueue, hwaits]
    intro id hid last hdue
    rw [Automations.Due, hjobs, hseen, hnow, hon id hid] at hdue
    exact h.stands id (hheld hid) last hdue
  · rw [hqueue, hseen, hnow, hwaits]
    intro e he last t hlast hcame
    obtain ⟨ht, hle, hexact⟩ := h.counted e he last t hlast hcame
    exact ⟨ht, hle, fun hin => hexact (hheld hin)⟩

/-- More runs under way take no seat free. -/
theorem Seated.more (h : Seated s) (hqueue : s'.queue = s.queue) (hwaits : s'.waits = s.waits)
    (hcap : s'.cap = s.cap) (hmore : s.under_way ≤ s'.under_way) : Seated s' := by
  unfold Seated at *
  rw [hqueue, hwaits, hcap]
  rcases h with h | h | h
  · exact Or.inl h
  · exact Or.inr (Or.inl h)
  · exact Or.inr (Or.inr (h.trans hmore))

omit [DecidableEq ι] in
theorem due_list_sorted (jobs : List ι) (now : ℕ) :
    (due_list offset job s jobs now).Pairwise fun a b => b.2 ≤ a.2 :=
  sortBy_pairwise (fun e : ι × ℕ => OrderDual.toDual e.2) _

omit [DecidableEq ι] in
theorem mem_due_list {jobs : List ι} {now : ℕ} {e : ι × ℕ} (h : e ∈ due_list offset job s jobs now) :
    e.1 ∈ jobs ∧ ∃ last, s.last_run_at e.1 = some last ∧
      is_due (job e.1).schedule offset last now (job e.1).seed = true ∧
      e.2 = waited offset (job e.1) last now := by
  rw [due_list, (sortBy_perm _ _).mem_iff, mem_filterMap] at h
  obtain ⟨id, hid, hsome⟩ := h
  obtain ⟨w, hover, rfl⟩ := Option.map_eq_some_iff.mp hsome
  refine ⟨hid, ?_⟩
  unfold overdue_by at hover
  split at hover
  next last hlast =>
    split_ifs at hover with hdue
    rw [Bool.and_eq_true] at hdue
    exact ⟨last, hlast, hdue.2, (Option.some.inj hover).symm⟩
  · exact absurd hover (by simp)

omit [DecidableEq ι] in
/-- Everyone the tick finds due is in its list. -/
theorem on_due_list {jobs : List ι} {now last : ℕ} {id : ι} (hid : id ∈ jobs)
    (hon : s.on id = true) (hlast : s.last_run_at id = some last)
    (hdue : is_due (job id).schedule offset last now (job id).seed = true) :
    id ∈ (due_list offset job s jobs now).map Prod.fst := by
  have hover : overdue_by offset (job id) (s.last_run_at id) (s.on id) now
      = some (waited offset (job id) last now) := by
    simp only [overdue_by, hlast, hon, hdue, Bool.and_self, if_true]
  refine mem_map.mpr ⟨(id, waited offset (job id) last now), ?_, rfl⟩
  rw [due_list, (sortBy_perm _ _).mem_iff, mem_filterMap]
  exact ⟨id, hid, by rw [hover]; rfl⟩

/-- A tick puts everyone who is due in the list, with how long it has waited. -/
theorem Line.tick {jobs : List ι} {cap now clock : ℕ}
    (hC : Undisturbed offset job s (.tick jobs cap now clock))
    (hstep : s.step offset job (.tick jobs cap now clock) = some s') : Line offset job s' := by
  unfold Automations.step at hstep
  dsimp only at hstep
  split_ifs at hstep with hready
  cases hstep
  refine ⟨due_list_sorted jobs now, ?_, Or.inr (Or.inl rfl), ?_⟩
  · rintro id - last ⟨hid, hon, hlast, hdue⟩
    exact Or.inl (on_due_list hid hon hlast hdue)
  intro e he last t hlast hcame
  obtain ⟨hjobs, last', hlast', hdue, hw⟩ := mem_due_list he
  change s.last_run_at e.1 = some last at hlast
  rw [hlast] at hlast'
  cases hlast'
  obtain ⟨hepoch, honce⟩ := hC e.1 hjobs
  obtain ⟨ht, hle, hexact⟩ := waited_since hready.2 hepoch hdue hcame
  rw [← hw] at hle hexact
  exact ⟨ht, hle, fun hheld => Or.inr (hexact (honce hheld last hlast))⟩

/-- The loop goes on behind a job that is held no longer. -/
theorem Line.go_on (h : Line offset job s) {id : ι} {w : ℕ} {queue : List (ι × ℕ)}
    (hqueue : s.queue = (id, w) :: queue) (hrest : s'.queue = queue)
    (hsame : s'.Due offset job = s.Due offset job)
    (hseen : s'.seen = s.seen) (hnow : s'.now = s.now) (hwaits : s'.waits = s.waits)
    (hheld : s'.held = s.held.erase id) (hseated : Seated s') : Line offset job s' := by
  have hsorted := h.sorted
  rw [hqueue] at hsorted
  refine ⟨by rw [hrest]; exact (pairwise_cons.mp hsorted).2, ?_, hseated, ?_⟩
  · rw [hrest, hsame, hwaits, hheld]
    intro id' hid' last hdue'
    obtain ⟨hne, hheld'⟩ := Finset.mem_erase.mp hid'
    rcases h.stands id' hheld' last hdue' with hin | hwaits'
    · rw [hqueue, map_cons, mem_cons] at hin
      exact Or.inl (hin.resolve_left hne)
    · exact Or.inr hwaits'
  · rw [hrest, hseen, hnow, hwaits, hheld]
    intro e he last t hlast hcame
    obtain ⟨ht, hle, hexact⟩ :=
      h.counted e (by rw [hqueue]; exact mem_cons_of_mem _ he) last t hlast hcame
    exact ⟨ht, hle, fun hin => hexact (Finset.mem_of_mem_erase hin)⟩

/-- The loop's turn: who is next starts, is held back, or is passed over. -/
theorem Line.next (h : Line offset job s) {plan : Sharing.Plan}
    (hstep : s.step offset job (.next plan) = some s') : Line offset job s' := by
  unfold Automations.step at hstep
  dsimp only at hstep
  cases hqueue : s.queue with
  | nil =>
    rw [hqueue] at hstep
    exact absurd hstep (by simp)
  | cons e queue =>
    obtain ⟨id, w⟩ := e
    rw [hqueue] at hstep
    dsimp only at hstep
    have hopen : s.waits = false ∨ s.cap ≤ s.under_way := by
      rcases h.seated with hnil | hseated
      · rw [hqueue] at hnil
        exact absurd hnil (by simp)
      · exact hseated
    by_cases hrun : plan = .Run
    · rw [if_neg (not_not.mpr hrun)] at hstep
      by_cases hfull : s.cap ≤ s.under_way
      · rw [if_pos hfull] at hstep
        cases hstep
        have hsorted := h.sorted
        rw [hqueue] at hsorted
        refine ⟨(pairwise_cons.mp hsorted).2, fun _ _ _ _ => Or.inr rfl,
          Or.inr (Or.inr hfull), ?_⟩
        intro e he last t hlast hcame
        obtain ⟨ht, hle, -⟩ :=
          h.counted e (by rw [hqueue]; exact mem_cons_of_mem _ he) last t hlast hcame
        exact ⟨ht, hle, fun _ => Or.inl rfl⟩
      · rw [if_neg hfull] at hstep
        cases hstep
        exact h.go_on hqueue rfl rfl rfl rfl rfl rfl
          (Or.inr (Or.inl (hopen.resolve_right hfull)))
    · rw [if_pos hrun] at hstep
      cases hstep
      exact h.go_on hqueue rfl rfl rfl rfl rfl rfl (Or.inr hopen)

theorem under_way_le (hflight : s.inflight ⊆ s'.inflight) (hactive : s.active_runs ⊆ s'.active_runs)
    (hblocked : s'.blocked ⊆ s.blocked) : s.under_way ≤ s'.under_way :=
  Finset.card_le_card (Finset.sdiff_subset_sdiff (Finset.union_subset_union hflight hactive) hblocked)

theorem Line.step (h : Line offset job s) {e : JobEvent ι} (hC : Undisturbed offset job s e)
    (hstep : s.step offset job e = some s') : Line offset job s' := by
  cases e with
  | tick jobs cap now clock => exact Line.tick hC hstep
  | next plan => exact h.next hstep
  | run_now id =>
    cases hstep
    exact h.aside rfl rfl rfl rfl rfl (Finset.Subset.refl _) (fun _ _ => rfl) (h.seated.more rfl rfl rfl
      (under_way_le (Finset.subset_insert _ _) (Finset.Subset.refl _) (Finset.Subset.refl _)))
  | agent_started id =>
    cases hstep
    exact h.aside rfl rfl rfl rfl rfl (Finset.Subset.refl _) (fun _ _ => rfl) (h.seated.more rfl rfl rfl
      (under_way_le (Finset.Subset.refl _) (Finset.subset_insert _ _) (Finset.Subset.refl _)))
  | answered id =>
    cases hstep
    exact h.aside rfl rfl rfl rfl rfl (Finset.Subset.refl _) (fun _ _ => rfl) (h.seated.more rfl rfl rfl
      (under_way_le (Finset.Subset.refl _) (Finset.Subset.refl _) (Finset.erase_subset _ _)))
  | pipeline_ended id | agent_ended id | asked id =>
    cases hstep
    exact h.aside rfl rfl rfl rfl rfl (Finset.Subset.refl _) (fun _ _ => rfl) hC
  | recorded id «at» =>
    cases hstep
    exact h.aside rfl rfl rfl rfl rfl (Finset.erase_subset _ _) (fun _ _ => rfl) h.seated
  | switched id on =>
    cases hstep
    refine h.aside rfl rfl rfl rfl rfl (Finset.erase_subset _ _) (fun id' hid' => ?_) h.seated
    exact Function.update_of_ne (Finset.ne_of_mem_erase hid') _ _

/-- In every run whose steps all leave the order alone, nobody who is due and was held back
for capacity is overtaken. -/
theorem first_come_first_served (h : Reachable ((scheduler offset job).when (Undisturbed offset job)) s) :
    FirstCome offset job s := by
  have hline : Line offset job s := by
    refine h.invariant ?_ ?_
    · rintro s ⟨hqueue, -, hwaits, hheld⟩
      refine ⟨by rw [hqueue]; exact .nil, ?_, Or.inl hqueue, ?_⟩
      · rw [hheld]
        exact fun id hid => absurd hid (Finset.notMem_empty id)
      · rw [hqueue]
        exact fun e he => absurd he not_mem_nil
    · intro s e s' h hstep
      exact h.step hstep.1 hstep.2
  exact hline.first_come

end

/-! ## Two cron jobs and one seat -/

/-- A job at five past and at ten past every hour. -/
def five_and_ten : Cron.CronSpec :=
  { source := "5,10 * * * *".toList, minutes := 0x420, hours := 0xffffff
    dom := 0xfffffffe, months := 0x1ffe, dow := 0x7f, dom_any := true, dow_any := true }

/-- A job at seven past every hour. -/
def past_seven : Cron.CronSpec :=
  { five_and_ten with source := "7 * * * *".toList, minutes := 0x80 }

theorem five_and_ten_accepted : Cron.Accepted five_and_ten :=
  Cron.parse_accepted (show Cron.parse "5,10 * * * *".toList 300 = .ok five_and_ten by rfl)

theorem past_seven_accepted : Cron.Accepted past_seven :=
  Cron.parse_accepted (show Cron.parse "7 * * * *".toList 300 = .ok past_seven by rfl)

/-- The job at seven past is the second of three. -/
def three_jobs (id : Fin 3) : Job :=
  if id = 1 then { schedule := .Cron past_seven, seed := 0, sound := past_seven_accepted }
  else { schedule := .Cron five_and_ten, seed := 0, sound := five_and_ten_accepted }

/-- The third job has the one seat, started by hand. -/
def one_seat : Automations (Fin 3) :=
  { last_run_at := fun _ => some 0, on := fun _ => true, inflight := {2}, active_runs := ∅
    blocked := ∅, cap := 1, now := 0, queue := [], jobs := [], seen := fun _ => none, waits := false
    held := ∅ }

section
variable [DecidableEq ι] {offset : ℤ} {job : ι → Job} {s : Automations ι} {queue : List (ι × ℕ)}

/-- A tick, with the list it makes. -/
theorem tick_step {jobs : List ι} {now : ℕ} (cap clock : ℕ) (hqueue : s.queue = [])
    (hnow : now < 2 ^ 63) (hlist : due_list offset job s jobs now = queue) :
    (scheduler offset job).step s (.tick jobs cap now clock) { s with
      last_run_at := fun id =>
        if id ∈ jobs then some ((s.last_run_at id).getD clock) else s.last_run_at id
      cap := max cap 1, now, queue, jobs, seen := s.last_run_at, waits := false } := by
  subst hlist
  exact if_pos ⟨hqueue, hnow⟩

end

/-- How long the two jobs have been due at some time, where they have never run. -/
theorem three_jobs_list {s : Automations (Fin 3)} {now w w' : ℕ} (hlast : s.last_run_at 0 = some 0)
    (hlast' : s.last_run_at 1 = some 0) (hon : s.on 0 = true) (hon' : s.on 1 = true)
    (hfive : overdue_by 0 (three_jobs 0) (some 0) true now = some w)
    (hseven : overdue_by 0 (three_jobs 1) (some 0) true now = some w') :
    due_list 0 three_jobs s [0, 1] now
      = sortBy (fun e => OrderDual.toDual e.2) [((0 : Fin 3), w), ((1 : Fin 3), w')] := by
  simp [due_list, hlast, hlast', hon, hon', hfive, hseven]

/-- At first the job at five past has been due for longer. -/
theorem first_list : due_list 0 three_jobs one_seat [0, 1] 430 = [(0, 130), (1, 10)] := by
  rw [@three_jobs_list one_seat 430 130 10 rfl rfl rfl rfl (by decide +kernel) (by decide +kernel)]
  exact sortBy_of_pairwise (by decide)

/-- Both were held back, and the seat has come free since. -/
def both_held : Automations (Fin 3) :=
  { one_seat with
    last_run_at := fun id =>
      if id ∈ [0, 1] then some ((one_seat.last_run_at id).getD 430) else one_seat.last_run_at id
    inflight := one_seat.inflight.erase 2, now := 430, jobs := [0, 1], seen := one_seat.last_run_at
    waits := true, held := insert 1 (insert 0 ∅) }

theorem both_held_reached : Reachable (scheduler 0 three_jobs) both_held := by
  have hstart : Reachable (scheduler 0 three_jobs) one_seat := .start ⟨rfl, rfl, rfl, rfl⟩
  have hfirst := hstart.next (tick_step 1 430 rfl (by decide) first_list)
  exact hfirst.run (fun _ _ _ h => h)
    (rfl : [.next .Run, .next .Run, .pipeline_ended 2].foldlM (Automations.step 0 three_jobs) _
      = some both_held)

/-- Behind its own next run, the job at five past has been due for less long. -/
theorem second_list : due_list 0 three_jobs both_held [0, 1] 610 = [(1, 190), (0, 10)] := by
  rw [@three_jobs_list both_held 610 10 190 rfl rfl rfl rfl (by decide +kernel) (by decide +kernel)]
  exact sortBy_swap (by decide)

theorem five_and_ten_matches : five_and_ten.Matches 0 300 := by
  unfold Cron.CronSpec.Matches
  decide +kernel

theorem past_seven_matches : past_seven.Matches 0 420 := by
  unfold Cron.CronSpec.Matches
  decide +kernel

theorem five_and_ten_came_due : CameDue 0 (three_jobs 0) 0 300 := by
  have hminutes : ∀ m < 5, Cron.has five_and_ten.minutes m = false := by decide
  refine ⟨300, ⟨⟨by decide, five_and_ten_matches⟩, ?_⟩, rfl⟩
  rintro p ⟨hpast, hfull, hminute, -, -⟩
  by_contra hearly
  rw [hminutes _ (by omega)] at hminute
  contradiction

theorem past_seven_came_due : CameDue 0 (three_jobs 1) 0 420 := by
  have hminutes : ∀ m < 60, Cron.has past_seven.minutes m = true → m = 7 := by decide
  refine ⟨420, ⟨⟨by decide, past_seven_matches⟩, ?_⟩, rfl⟩
  rintro p ⟨hpast, hfull, hminute, -, -⟩
  have := hminutes _ (by omega) hminute
  omega

theorem three_after_epoch {now : ℕ} (hnow : 420 ≤ now) :
    ∀ id ∈ [(0 : Fin 3), 1], AfterEpoch 0 (three_jobs id) now := by
  intro id hid p hlast
  rcases mem_pair.mp hid with rfl | rfl
  · have hle : 300 ≤ p := hlast.2 ⟨by omega, five_and_ten_matches⟩
    omega
  · have hle : 420 ≤ p := hlast.2 ⟨by omega, past_seven_matches⟩
    omega

/-- Up to 00:07:20 neither has fired a second time. -/
theorem three_once : ∀ id ∈ [(0 : Fin 3), 1], Once 0 (three_jobs id) 0 440 := by
  have hfive : ∀ p, five_and_ten.Matches 0 p → 0 < p → p ≤ 440 → p = 300 := by
    rintro p ⟨hfull, hminute, -, -⟩ hpast hle
    have hminutes : ∀ m < 8, Cron.has five_and_ten.minutes m = true → m = 5 := by decide
    have := hminutes _ (by omega) hminute
    omega
  have hseven : ∀ p, past_seven.Matches 0 p → 0 < p → p ≤ 440 → p = 420 := by
    rintro p ⟨hfull, hminute, -, -⟩ hpast hle
    have hminutes : ∀ m < 8, Cron.has past_seven.minutes m = true → m = 7 := by decide
    have := hminutes _ (by omega) hminute
    omega
  intro id hid
  rcases mem_pair.mp hid with rfl | rfl
  · intro p q hp hq hpast hle hpast' hle'
    rw [hfive p hp hpast hle, hfive q hq hpast' hle']
  · intro p q hp hq hpast hle hpast' hle'
    rw [hseven p hp hpast hle, hseven q hq hpast' hle']

/-- Ten seconds after both were held back the seat is free, and the one that came due first is
first in the list. -/
theorem first_come_first_served_tick :
    FirstCome 0 three_jobs { both_held with
      last_run_at := fun id =>
        if id ∈ [0, 1] then some ((both_held.last_run_at id).getD 440) else both_held.last_run_at id
      cap := max 1 1, now := 440, queue := [(0, 140), (1, 20)], jobs := [0, 1]
      seen := both_held.last_run_at, waits := false } := by
  apply first_come_first_served
  have hstart : Reachable ((scheduler 0 three_jobs).when (Undisturbed 0 three_jobs)) one_seat :=
    .start ⟨rfl, rfl, rfl, rfl⟩
  have hepoch := @three_after_epoch 430 (by decide)
  have hcalm : Undisturbed 0 three_jobs one_seat (.tick [0, 1] 1 430 430) :=
    fun id hid => ⟨hepoch id hid, fun hheld => absurd hheld (Finset.notMem_empty id)⟩
  have hfirst := hstart.next ⟨hcalm, tick_step 1 430 rfl (by decide) first_list⟩
  have hboth : Reachable ((scheduler 0 three_jobs).when (Undisturbed 0 three_jobs))
      { both_held with inflight := one_seat.inflight } := by
    refine hfirst.run_when (fun _ _ _ h => h) ?_
      (rfl : [.next .Run, .next .Run].foldlM (Automations.step 0 three_jobs) _ = _)
    intro e he s
    rw [mem_pair, or_self] at he
    subst he
    trivial
  have hfree : Reachable ((scheduler 0 three_jobs).when (Undisturbed 0 three_jobs)) both_held :=
    hboth.next (a := .pipeline_ended 2) ⟨Or.inl rfl, rfl⟩
  have hepoch' := @three_after_epoch 440 (by decide)
  have hcalm' : Undisturbed 0 three_jobs both_held (.tick [0, 1] 1 440 440) := by
    intro id hid
    refine ⟨hepoch' id hid, ?_⟩
    intro _ last hlast
    have hzero : last = 0 := by
      rcases mem_pair.mp hid with rfl | rfl
      · exact (Option.some.inj hlast).symm
      · exact (Option.some.inj hlast).symm
    rw [hzero]
    exact three_once id hid
  refine hfree.next ⟨hcalm', tick_step 1 440 rfl (by decide) ?_⟩
  rw [@three_jobs_list both_held 440 140 20 rfl rfl rfl rfl (by decide +kernel) (by decide +kernel)]
  exact sortBy_of_pairwise (by decide)

/-- The first job came due at 00:05 and the second at 00:07, and both were held back; the first
one's next run passes at 00:10, and the seat that is free then goes to the second. -/
theorem overtaken_when_the_next_run_passes :
    ¬ ∀ s, Reachable (scheduler 0 three_jobs) s → FirstCome 0 three_jobs s := by
  intro h
  have hlast := both_held_reached.next (tick_step 1 610 rfl (by decide) second_list)
  have hle := h _ hlast 1 190 [(0, 10)] rfl (by decide) 0 (by decide) 0 0 300 420
    ⟨by decide, rfl, rfl, by decide +kernel⟩ rfl five_and_ten_came_due past_seven_came_due
  exact absurd hle (by decide)

end Lpm.Jobs
