/-
No tunnel twice, none left behind, and the record of what was open.

A request looks whether its port has a tunnel before it spawns, and does not look again:
between the look and the registration another request for the port may register. The exit has two such gaps, a change whose write
is still to come when it begins, and a call that has taken a tunnel and not killed it yet
when it returns. `Spared` says of each step that its gap is closed.
-/
import Lpm.Forwards.Stops

set_option autoImplicit false

open Transition

namespace Lpm.Forwards

open List Function

section
variable {α π : Type}

attribute [local grind] Phase.unwritten Phase.served Phase.starting Phase.own Exit.past_take
  State.quitting Phase.looked Phase.request

/-- The record is that of the map, but for changes that are to be written; once the exit has
begun it is what was open then. -/
structure Recorded [DecidableEq π] (record : π → List PortForward) (s : State α π) : Prop where
  running : s.exit = .running → (∀ a, (s.phase a).unwritten = false) →
    (s.last_write = none → s.record = record ∧ s.forwards = []) ∧
    (s.last_write = some (.ok ()) → s.record = saved s.forwards)
  quitting : s.exit ≠ .running → s.record = s.opened

/-- No two tunnels of a project have one remote port. -/
def Apart (forwards : List (Forward π)) : Prop :=
  forwards.Pairwise fun e e' => e.project = e'.project → e.remote_port ≠ e'.remote_port

/-- A request that goes on had found no tunnel for its port. -/
def Looked (s : State α π) : Prop :=
  ∀ a r, (s.phase a).looked = some r → ∀ e ∈ s.seen a, e.project = r.project →
    e.remote_port ≠ r.port

/-- Once the exit has returned, no other call has anything to kill. -/
def Finished (s : State α π) : Prop :=
  s.exit = .returned → ∀ a pids changed, s.phase a = .kills pids changed → pids = []

variable [DecidableEq α] [DecidableEq π] {s s' : State α π} {a : α}
variable {record : π → List PortForward}

omit [DecidableEq α] in
theorem Apart.nodup {forwards : List (Forward π)} (h : Apart forwards) (project : π) :
    ((tunnels forwards project).map Forward.remote_port).Nodup := by
  rw [List.Nodup, pairwise_map]
  refine (List.Pairwise.filter _ h).imp_of_mem ?_
  intro e e' he he' hne
  have hp := (mem_tunnels.mp he).2
  have hp' := (mem_tunnels.mp he').2
  exact hne (hp.trans hp'.symm)

omit [DecidableEq α] [DecidableEq π] in
/-- What a request saw stands while the request moves on. -/
theorem Looked.of (hi : Looked s) (hseen : s'.seen = s.seen)
    (hlooked : ∀ b r, (s'.phase b).looked = some r → (s.phase b).looked = some r) : Looked s' := by
  intro b r hr
  rw [hseen]
  exact hi b r (hlooked b r hr)

theorem Looked.took (hi : Looked s) (h : Took s a s') : Looked s' := by
  cases h with
  | looks r hphase hnone =>
    intro b r' hr e he hproject
    simp only [State.go] at hr he
    rcases eq_or_ne b a with rfl | hba
    · rw [update_self] at hr he
      cases hr
      exact hnone e (mem_tunnels.mpr ⟨he, hproject⟩)
    · rw [update_of_ne hba] at hr he
      exact hi b r' hr e he hproject
  | answers r result hphase =>
    intro b r' hr e he hproject
    simp only [State.go] at hr he
    rcases eq_or_ne b a with rfl | hba
    · rw [update_self] at hr
      cases hr
    · rw [update_of_ne hba] at hr he
      exact hi b r' hr e he hproject
  | _ =>
    refine hi.of rfl fun b r => ?_
    simp only [State.go, State.kill, update_apply]
    grind -ring -linarith -ac

omit [DecidableEq α] in
theorem Looked.exits (hi : Looked s) (h : ExitTook s s') : Looked s' := by
  cases h <;> exact hi

theorem Apart.took (hi : Apart s.forwards) (hl : Looked s) (h : Took s a s')
    (hspared : ∀ o id, s.phase a = .registers o id →
      ∀ e ∈ tunnels s.forwards o.request.project, e ∉ s.seen a →
        e.remote_port ≠ o.request.port) :
    Apart s'.forwards := by
  cases h with
  | register o id hphase =>
    refine pairwise_append.mpr ⟨hi, pairwise_singleton _ _, ?_⟩
    intro e he e' he' hproject
    obtain rfl := mem_singleton.mp he'
    -- what was there at the look is not for the port, what came since is not there
    by_cases hseen : e ∈ s.seen a
    · have hlooked : (s.phase a).looked = some o.request := by rw [hphase]; rfl
      exact hl a o.request hlooked e hseen hproject
    · exact hspared o id hphase e (mem_tunnels.mpr ⟨he, hproject⟩) hseen
  | drop o id hphase hdead hkept =>
    rw [hkept]
    exact List.Pairwise.filter _ hi
  | remove found hphase => exact hi.sublist eraseP_sublist
  | drain project hphase hpids => exact List.Pairwise.filter _ hi
  | _ => exact hi

omit [DecidableEq α] in
theorem Apart.exits (hi : Apart s.forwards) (h : ExitTook s s') : Apart s'.forwards := by
  cases h with
  | take_all starting hexit => exact List.Pairwise.nil
  | _ => exact hi

theorem Finished.took (hi : Finished s) (he : Exiting s) (h : Took s a s') : Finished s' := by
  have h4 := he.forwards
  unfold Finished at hi ⊢
  cases h <;> simp only [State.go, State.kill, update_apply]
  case drain project hphase pids hpids =>
    intro hexit
    have hempty := h4 (by rw [hexit]; rfl)
    rw [hempty] at hpids
    obtain rfl : pids = [] := hpids
    grind -ring -linarith -ac
  all_goals grind -ring -linarith -ac

variable {p : Phase π}

omit [DecidableEq α] [DecidableEq π] in
theorem starting_written {o : Opening π} (h : p.starting = some o) :
    p.unwritten = false := by
  cases p <;> cases h <;> rfl

omit [DecidableEq π] in
/-- Where the call that moved has nothing to write, before or after, who has is as before. -/
theorem written_of (hp : p.unwritten = false → (s.phase a).unwritten = false)
    (h : ∀ b, ((s.go a p).phase b).unwritten = false) : ∀ b, (s.phase b).unwritten = false := by
  intro b
  have hb := h b
  by_cases hba : b = a
  · subst hba
    have hself : (s.go b p).phase b = p := update_self _ _ _
    rw [hself] at hb
    exact hp hb
  · have hother : (s.go a p).phase b = s.phase b := update_of_ne hba _ _
    rwa [hother] at hb

omit [DecidableEq π] in
/-- A call that has something to write is one that has. -/
theorem not_written (hp : p.unwritten = true)
    (h : ∀ b, ((s.go a p).phase b).unwritten = false) : False := by
  have ha := h a
  have hself : (s.go a p).phase a = p := update_self _ _ _
  rw [hself, hp] at ha
  cases ha

omit [DecidableEq α] in
/-- A step that leaves the map and the record. -/
theorem Recorded.same (hi : Recorded record s) (hexit : s'.exit = s.exit)
    (hforwards : s'.forwards = s.forwards) (hrecord : s'.record = s.record)
    (hlast : s'.last_write = s.last_write) (hopened : s'.opened = s.opened)
    (hwritten : (∀ b, (s'.phase b).unwritten = false) → ∀ b, (s.phase b).unwritten = false) :
    Recorded record s' := by
  refine ⟨fun hrunning hall => ?_, fun hquitting => ?_⟩
  · rw [hforwards, hrecord, hlast]
    exact hi.running (hexit ▸ hrunning) (hwritten hall)
  · rw [hrecord, hopened]
    exact hi.quitting (hexit ▸ hquitting)

/-- A step after which the call has the record to write. -/
theorem Recorded.unwritten (hi : Recorded record s) {forwards : List (Forward π)}
    {lock : Option α} (hp : p.unwritten = true) :
    Recorded record ({ s with forwards, epochs_lock := lock }.go a p) :=
  ⟨fun _ hall => (not_written hp hall).elim, hi.quitting⟩

theorem Recorded.wrote (hi : Recorded record s) {written : π → List PortForward}
    {last_write : Option (Except String Unit)} (h : Wrote s written last_write) :
    Recorded record ({ s with record := written, last_write }.go a p) := by
  have hquitting : s.exit = .running → s.quitting = false := by
    intro hexit
    rw [State.quitting, hexit]
  have hrunning : s.exit ≠ .running → s.quitting = true := by
    intro hexit
    unfold State.quitting
    split
    · contradiction
    · rfl
  rcases h with ⟨hq, rfl, rfl⟩ | ⟨hq, rfl, rfl⟩ | ⟨hq, ⟨e, rfl⟩, rfl⟩
  · refine ⟨fun hexit => ?_, hi.quitting⟩
    rw [hquitting hexit] at hq
    cases hq
  · refine ⟨fun _ _ => ⟨(fun hn => nomatch hn), fun _ => rfl⟩, fun hexit => ?_⟩
    rw [hrunning hexit] at hq
    cases hq
  · refine ⟨fun _ _ => ⟨(fun hn => nomatch hn), fun hn => nomatch hn⟩, hi.quitting⟩

theorem Recorded.took (hi : Recorded record s) (h : Took s a s') : Recorded record s' := by
  cases h with
  | register o id hphase =>
    exact ⟨fun _ hall => (not_written (p := .registered o id) rfl hall).elim, hi.quitting⟩
  | serves o id hphase hwrote => exact hi.wrote hwrote
  | ended hphase hwrote => exact hi.wrote hwrote
  | drop o id hphase hdead hkept =>
    split
    · next hlength =>
      rw [hkept] at hlength ⊢
      -- nothing was dropped, and the record is as it was
      have hsame := filter_eq_self.mpr (length_filter_eq_length_iff.mp hlength)
      rw [hsame]
      exact hi.same rfl rfl rfl rfl rfl (written_of fun _ => congrArg Phase.unwritten hphase)
    · exact hi.unwritten (p := .remembers) rfl
  | remove found hphase =>
    split
    · next hnone =>
      have hsame : s.forwards.eraseP found = s.forwards := by
        refine eraseP_of_forall_not fun e he => ?_
        exact find?_eq_none.mp hnone e he
      rw [hsame]
      exact hi.same rfl rfl rfl rfl rfl (written_of fun _ => congrArg Phase.unwritten hphase)
    · next e hfind => exact hi.unwritten (p := .kills [e.pid] true) rfl
  | drain project hphase hpids =>
    rename_i pids
    -- a project without tunnels has nothing to lose
    cases hempty : pids.isEmpty with
    | false => exact hi.unwritten (p := .kills pids true) rfl
    | true =>
      have hnone : tunnels s.forwards project = [] := by
        rw [List.isEmpty_iff.mp hempty] at hpids
        exact map_eq_nil_iff.mp hpids.symm
      have hsame : s.forwards.filter (·.project ≠ project) = s.forwards := by
        refine filter_eq_self.mpr fun e he => decide_eq_true ?_
        intro hproject
        have hmem := mem_tunnels.mpr ⟨he, hproject⟩
        rw [hnone] at hmem
        exact not_mem_nil hmem
      rw [hsame]
      exact hi.same rfl rfl rfl rfl rfl (written_of fun _ => congrArg Phase.unwritten hphase)
  | decide r hphase _ _ | looks r hphase _ | answers r _ hphase | spawn o hphase _ | refuse o hphase _ | track o hphase _ | late o e hphase
  | listens o hphase | claim o id hphase _ _ _ | kill_own o e hphase | stop p hphase _ =>
    exact hi.same rfl rfl rfl rfl rfl (written_of fun _ => congrArg Phase.unwritten hphase)
  | kill pid pids changed hphase =>
    have hkills : (s.phase a).unwritten = changed := congrArg Phase.unwritten hphase
    exact hi.same rfl rfl rfl rfl rfl (written_of fun hp => hkills.trans hp)
  | returns result hphase =>
    refine hi.same rfl rfl rfl rfl rfl (written_of fun _ => ?_)
    rcases hphase with ⟨r, hphase⟩ | ⟨o, e, hphase, -⟩ <;> rw [hphase] <;> rfl
  | aborts o e hphase _ | robbed o e hphase _ =>
    exact hi.same rfl rfl rfl rfl rfl (written_of fun _ => starting_written hphase)

omit [DecidableEq α] in
theorem Recorded.exits (hi : Recorded record s) (h : ExitTook s s')
    (hspared : s.exit = .running → s'.exit ≠ .running → s.settled record) :
    Recorded record s' := by
  cases h with
  | begin_quit hexit =>
    obtain ⟨hlast, hwritten⟩ := hspared hexit (fun hn => nomatch hn)
    obtain ⟨hnone, hok⟩ := hi.running hexit hwritten
    refine ⟨(fun hn => nomatch hn), fun _ => ?_⟩
    rcases hlast with hlast | ⟨hlast, hempty⟩
    · exact hok hlast
    · obtain ⟨hrecord, hforwards⟩ := hnone hlast
      funext project
      have hopened : saved s.forwards project = [] := by
        rw [hforwards]
        rfl
      exact (congrFun hrecord project).trans ((hempty project).trans hopened.symm)
  | die pid halive => exact ⟨hi.running, hi.quitting⟩
  | bump_all starting hexit hlock | take_all starting hexit | kill pid pids hexit | return_ hexit =>
    refine ⟨(fun hn => nomatch hn), fun _ => hi.quitting ?_⟩
    rw [hexit]
    exact fun hn => nomatch hn

omit [DecidableEq α] in
theorem Finished.exits (hi : Finished s) (h : ExitTook s s')
    (hspared : s.exit ≠ .returned → s'.exit = .returned →
      ∀ a pids changed, s.phase a = .kills pids changed → pids = []) : Finished s' := by
  cases h with
  | return_ hexit =>
    intro _
    exact hspared (by rw [hexit]; exact fun hn => nomatch hn) rfl
  | die pid halive => exact hi
  | _ => exact fun hn => nomatch hn

/-! ## Which steps the exit makes -/

theorem Took.exit (h : Took s a s') : s'.exit = s.exit := by
  cases h <;> rfl

variable {e : Event α π}

theorem eq_begin_quit (h : step s e = some s') (hs : s.exit = .running)
    (hs' : s'.exit ≠ .running) : e = .begin_quit := by
  cases e with
  | of a x =>
    rw [(act_took h).exit] at hs'
    exact absurd hs hs'
  | begin_quit => rfl
  | die pid =>
    rw [step] at h
    split at h
    · cases h
      exact absurd hs hs'
    · cases h
  | _ =>
    rw [step, hs] at h
    cases h

theorem eq_return (h : step s e = some s') (hs : s.exit ≠ .returned)
    (hs' : s'.exit = .returned) : e = .return_ := by
  cases e with
  | of a x =>
    rw [(act_took h).exit] at hs'
    exact absurd hs' hs
  | return_ => rfl
  | die pid =>
    rw [step] at h
    split at h
    · cases h
      exact absurd hs' hs
    · cases h
  | bump_all =>
    rw [step] at h
    split at h
    · split at h
      · cases h
        cases hs'
      · cases h
    · cases h
  | _ =>
    rw [step] at h
    split at h
    · cases h
      cases hs'
    · cases h

variable {o : Opening π}

theorem eq_register {x : Act π} {id : Nat} (hphase : s.phase a = .registers o id)
    (h : act s a x (s.phase a) = some s') : x = .register := by
  rw [hphase] at h
  cases x with
  | register => rfl
  | wait_for_local_listen io => cases io <;> cases h
  | _ => cases h

/-! ## Every run -/

structure Inv (record : π → List PortForward) (s : State α π) : Prop where
  children : Children s
  ids : Ids s
  listed : Listed s
  held : ∀ pid, s.proc pid = .alive → Held s pid
  epochs : Epochs s
  untaken : Untaken s
  exiting : Exiting s
  finished : Finished s
  recorded : Recorded record s
  looked : Looked s
  apart : Apart s.forwards

theorem inv_init (h : (app record).init s) : Inv record s := by
  obtain ⟨hphase, hexit, hepochs, hlock, hforwards, hstarting, hcounter, hrecord, hproc, hssh,
    hstopped, hlast, hopened⟩ := h
  have hopening : ∀ a o, (s.phase a).opening ≠ some o := fun a o ho => by
    rw [hphase a] at ho
    cases ho
  have hid : ∀ a n, (s.phase a).id ≠ some n := fun a n hn => by
    rw [hphase a] at hn
    cases hn
  have hnone : ∀ a pid, s.ssh a ≠ some pid := fun a pid hpid => by
    rw [hssh a] at hpid
    cases hpid
  -- nothing is decided, running or recorded yet
  refine {
    children := ⟨fun a o ho => absurd ho (hopening a o), fun a pid hpid => absurd hpid (hnone a pid),
      fun a b pid hpid => absurd hpid (hnone a pid)⟩
    ids := ⟨fun a n hn => absurd hn (hid a n), fun a b n hn => absurd hn (hid a n)⟩
    listed := ⟨by rw [hstarting]; simp, by rw [hforwards]; simp⟩
    held := fun pid halive => ?_
    epochs := ⟨fun a r hr => ?_, fun a o id hp => ?_, fun a b _ => hstopped b a⟩
    untaken := fun e he => ?_
    exiting := ⟨fun _ => hstarting, fun hbump => ?_, fun hbump => ?_, fun _ => hforwards⟩
    finished := fun hreturned => ?_
    recorded := ⟨fun _ _ => ⟨fun _ => ⟨hrecord, hforwards⟩, fun hn => ?_⟩, fun hn => absurd hexit hn⟩
    looked := fun a r hr => ?_
    apart := ?_ }
  · rw [hproc pid] at halive
    cases halive
  · rw [hphase a] at hr
    cases hr
  · rw [hphase a] at hp
    cases hp
  · rw [hforwards] at he
    exact absurd he not_mem_nil
  · rw [hexit] at hbump
    cases hbump
  · rw [hexit] at hbump
    cases hbump
  · rw [hexit] at hreturned
    cases hreturned
  · rw [hlast] at hn
    cases hn
  · rw [hphase a] at hr
    cases hr
  · rw [hforwards]
    exact List.Pairwise.nil

theorem inv_step (hi : Inv record s) (hspared : Spared record s e) (h : step s e = some s') :
    Inv record s' := by
  rcases step_took h with ⟨a, x, rfl, hact⟩ | ht
  · have ht := act_took hact
    refine ⟨hi.children.took ht, hi.ids.took ht, hi.listed.took hi.ids hi.children ht,
      Held.took hi.held hi.listed hi.ids ht, hi.epochs.took ht,
      hi.untaken.took hi.epochs hi.listed hi.ids ht, hi.exiting.took ht,
      hi.finished.took hi.exiting ht, hi.recorded.took ht, hi.looked.took ht,
      hi.apart.took hi.looked ht fun o id hphase => ?_⟩
    rw [eq_register hphase hact] at hspared
    exact hspared o id hphase
  · refine ⟨hi.children.exits ht, hi.ids.exits ht, hi.listed.exits ht, Held.exits hi.held ht,
      hi.epochs.exits ht, hi.untaken.exits ht, hi.exiting.exits hi.epochs ht,
      hi.finished.exits ht fun hs hs' => ?_, hi.recorded.exits ht fun hs hs' => ?_,
      hi.looked.exits ht, hi.apart.exits ht⟩
    · rw [eq_return h hs hs'] at hspared
      exact hspared
    · rw [eq_begin_quit h hs hs'] at hspared
      exact hspared

theorem inv_reachable (h : Reachable ((app record).when (Spared record)) s) : Inv record s := by
  induction h with
  | start h0 => exact inv_init h0
  | next _ hs ih => exact inv_step ih hs.1 hs.2

/-- A call has it in hand to kill it: a removal, a stop or the exit. -/
def Doomed (s : State α π) (pid : Nat) : Prop :=
  (∃ a pids changed, s.phase a = .kills pids changed ∧ pid ∈ pids) ∨ pid ∈ s.exit.pending

/-- The child is that of a request on its way, before any tunnel of it was registered. -/
def Phase.going (p : Phase π) (pid : Nat) : Prop :=
  ∃ o, p.opening = some o ∧ o.pid = pid ∧ p.served = none

omit [DecidableEq α] [DecidableEq π] in
theorem own_served {p : Phase π} (h : p.own = some o) : p.served = none := by
  cases p <;> cases h <;> rfl

omit [DecidableEq α] in
/-- What becomes of the child of a request that a stop found decided, once that stop has
emptied the map. -/
theorem Inv.stopped_child (hi : Inv record s) {a b : α} (hstopped : s.stopped b a = true)
    (hdrained : ∀ project, s.phase b ≠ .bumped project) {pid : Nat} (hpid : s.ssh a = some pid) :
    s.proc pid = .dead ∨ (s.phase a).going pid ∨ Doomed s pid := by
  have same : ∀ a' o, (s.phase a').opening = some o → o.pid = pid → a' = a := by
    rintro a' o ho rfl
    exact hi.children.inj a' a o.pid (hi.children.ssh a' o ho) hpid
  cases hproc : s.proc pid with
  | unborn => exact absurd hproc (hi.children.born a pid hpid)
  | dead => exact Or.inl rfl
  | alive =>
    right
    rcases hi.held pid hproc with ⟨a', o, ho, hop⟩ | hstarting | ⟨e, he, hep⟩ | htaken | hexit
    · obtain rfl := same a' o (own_opening ho) hop
      exact Or.inl ⟨o, own_opening ho, hop, own_served ho⟩
    · obtain ⟨a', o, ho, hop⟩ := hi.listed.starting pid hstarting
      obtain rfl := same a' o (starting_opening ho) hop
      exact Or.inl ⟨o, starting_opening ho, hop, starting_served ho⟩
    · obtain ⟨a', o, ho, hop, hproject⟩ := hi.listed.entry e he
      obtain rfl := same a' o (served_opening ho) (hop.trans hep)
      exact absurd (hi.untaken e he a' o ho b hstopped) (hdrained e.project)
    · exact Or.inr (Or.inl htaken)
    · exact Or.inr (Or.inr hexit)

omit [DecidableEq α] in
/-- What lives once the exit has returned is a child that its own request is about to kill. -/
theorem Inv.left_behind (hi : Inv record s) (hreturned : s.exit = .returned) {pid : Nat}
    (halive : s.proc pid = .alive) :
    ∃ a o, o.pid = pid ∧ (s.phase a = .tracks o ∨ ∃ e, s.phase a = .aborts o e) := by
  have hbump : s.exit.past_bump = true := by rw [hreturned]; rfl
  have htake : s.exit.past_take = true := by rw [hreturned]; rfl
  have hnot : s.exit ≠ .running := by rw [hreturned]; exact fun hn => nomatch hn
  rcases hi.held pid halive with ⟨a, o, ho, hop⟩ | hstarting | ⟨e, he, -⟩ |
    ⟨a, pids, changed, ha, hmem⟩ | hexit
  · refine ⟨a, o, hop, ?_⟩
    have hnone := hi.exiting.registers hbump a o
    cases hphase : s.phase a <;> rw [hphase] at ho hnone <;> cases ho
    · exact Or.inl rfl
    · exact absurd rfl (hnone _)
    · exact Or.inr ⟨_, rfl⟩
  · rw [hi.exiting.starting hnot] at hstarting
    exact absurd hstarting not_mem_nil
  · rw [hi.exiting.forwards htake] at he
    exact absurd he not_mem_nil
  · rw [hi.finished hreturned a pids changed ha] at hmem
    exact absurd hmem not_mem_nil
  · rw [hreturned] at hexit
    exact absurd hexit not_mem_nil

omit [DecidableEq α] in
/-- A request that a stop found decided is behind the generation. -/
theorem Inv.stopped_registers (hi : Inv record s) {a b : α} (hstopped : s.stopped b a = true)
    (o : Opening π) (id : Nat) : s.phase a ≠ .registers o id := by
  intro hphase
  have hrequest : (s.phase a).request = some o.request := by rw [hphase]; rfl
  obtain ⟨n, hn, -, hbehind⟩ := hi.epochs.behind a o.request hrequest
  have hsame := (hi.epochs.locked a o id hphase).2
  rw [hn] at hsame
  exact absurd (Option.some.inj hsame) (Nat.ne_of_gt (hbehind b hstopped))

/-- Nothing comes between such a request and the kill. -/
theorem about_to_kill {x : Act π} (hexit : s.exit = .returned)
    (hphase : s.phase a = .tracks o ∨ ∃ e, s.phase a = .aborts o e)
    (h : act s a x (s.phase a) = some s') :
    (∃ e, s'.phase a = .aborts o e) ∨ s'.proc o.pid = .dead := by
  have hquitting : s.quitting = true := by rw [State.quitting, hexit]
  rcases hphase with hphase | ⟨e, hphase⟩
  · rw [hphase] at h
    cases x with
    | track_starting =>
      rw [act, if_pos hquitting] at h
      cases h
      exact Or.inl ⟨.quitting, update_self _ _ _⟩
    | wait_for_local_listen io => cases io <;> cases h
    | _ => cases h
  · rw [hphase] at h
    cases x with
    | kill_own =>
      cases h
      exact Or.inr (update_self _ _ _)
    | wait_for_local_listen io => cases io <;> cases h
    | _ => cases h

end

/-! ## Two requests for one port -/

def launch : State Bool String where
  phase _ := .unused
  exit := .running
  epochs _ := none
  epochs_lock := none
  forwards := []
  starting := []
  counter := 0
  record _ := []
  proc _ := .unborn
  ssh _ := none
  seen _ := []
  stopped _ _ := false
  last_write := none
  opened _ := []

theorem launch_init : (app fun _ => []).init launch :=
  ⟨fun _ => rfl, rfl, fun _ => rfl, rfl, rfl, rfl, rfl, rfl, fun _ => rfl, fun _ => rfl,
    fun _ _ => rfl, rfl, fun _ => rfl⟩

def looked (a : Bool) : List (Event Bool String) :=
  [.of a (.decide "web" 3000 0), .of a (.check (.ok true))]

/-- From the look to where the request may register. -/
def claimed (a : Bool) (pid local_port : Nat) : List (Event Bool String) :=
  [.of a (.spawn false (.ok local_port) (.ok ()) (.ok pid)), .of a .track_starting,
    .of a (.wait_for_local_listen (.ok ())), .of a .claim]

/-- The first request saves the record, and a second one looks. -/
def asked_again : List (Event Bool String) :=
  .of true (.remember (.ok ())) :: looked false

def both : List (Event Bool String) :=
  looked true ++ looked false ++ claimed true 7 50000 ++ [.of true .register] ++
    claimed false 8 50001 ++ [.of false .register]

end Lpm.Forwards
