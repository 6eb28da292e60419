/-
What the tunnel guarantees in every run.

An entry does not outlive what it is for: the two directions of its stream, the dial, the
connection. On the client that is weaker than it looks. A port that nothing answers on is told
as the end of what the host sends, so the client's socket is half-closed, and the entry stays
until that socket was read to its end.
-/
import Lpm.PortTunnel.Machines

set_option autoImplicit false

open Transition

namespace Lpm.PortTunnel

open List Option Function

section
variable {σ : Type} [DecidableEq σ] {s s' : State σ}

/-! ## Runs -/

theorem Inv.step (h : Inv s) {ev : Event σ} (hstep : s.step ev = some s') : Inv s' := by
  -- each step of the two machines has its own lemma
  cases ev with
  | accept slug port => exact some.inj hstep ▸ h.accept slug port
  | client key e =>
    obtain ⟨e', he, hs⟩ := bind_eq_some_iff.mp hstep
    exact some.inj hs ▸ h.client_step he
  | client_send key => exact h.client_send hstep
  | host key e =>
    obtain ⟨e', he, hs⟩ := bind_eq_some_iff.mp hstep
    exact some.inj hs ▸ h.host_step he
  | host_send key => exact h.host_send hstep
  | dial key answers =>
    rw [State.step] at hstep
    split at hstep
    next hreader => exact some.inj hstep ▸ h.dial hreader answers
    next => exact nomatch hstep
  | to_host c =>
    rw [State.step] at hstep
    split at hstep
    next f rest hup =>
      split at hstep
      · exact some.inj hstep ▸ h.to_host hup
      · exact nomatch hstep
    next => exact nomatch hstep
  | to_client c =>
    rw [State.step] at hstep
    split at hstep
    next f rest slug hdown hslug =>
      split at hstep
      · exact some.inj hstep ▸ h.to_client hslug hdown
      · exact nomatch hstep
    next => exact nomatch hstep
  | connect slug => exact some.inj hstep ▸ h.connect slug
  | let_go slug => exact some.inj hstep ▸ h.let_go slug
  | drop_streams slug => exact some.inj hstep ▸ h.forget slug s.dropped
  | session_ends c => exact some.inj hstep ▸ h.session_ends c
  | drop_client_conn c =>
    rw [State.step] at hstep
    split at hstep
    next slug hslug =>
      split at hstep
      · exact some.inj hstep ▸ h.forget slug _
      · exact nomatch hstep
    next => exact nomatch hstep
  | drop_host_conn c => exact some.inj hstep ▸ h.drop_host c _
  | host_ends c =>
    rw [State.step] at hstep
    split at hstep
    · exact some.inj hstep ▸ h.host_ends c
    · exact nomatch hstep

omit [DecidableEq σ] in
theorem Inv.init : Inv ({} : State σ) := by
  refine ⟨⟨fun _ _ h => (nomatch h), fun _ _ => ⟨rfl, rfl, fun _ => rfl⟩, fun _ _ h => (nomatch h),
    fun _ _ h => (nomatch h), fun _ _ h => (nomatch h), fun _ _ => ⟨rfl, rfl⟩, fun _ _ h => (nomatch h),
    fun _ h => absurd rfl h⟩, fun key => ?_⟩
  exact ⟨Tidy.start, fun _ => ⟨rfl, rfl, rfl, fun _ _ => rfl⟩, fun _ h => (nomatch h), fun _ h => (nomatch h)⟩

theorem inv_of_reachable (h : Reachable system s) : Inv s :=
  h.invariant (fun s (h0 : s = {}) => h0 ▸ Inv.init) fun _ _ _ hinv hstep => hinv.step hstep

/-! ## Whose step it is -/

/-- One end of a stream. -/
inductive Place (σ : Type) where
  | client (key : ClientKey σ)
  | host (key : HostKey)

def State.stands (s : State σ) : Place σ → End
  | .client key => s.client key
  | .host key => s.host key

/-- The end whose stream takes the step; what happens to a connection is no stream's step. -/
def Event.place (s : State σ) : Event σ → Option (Place σ)
  | .accept slug _ => some (.client (slug, s.next_id))
  | .client key _ | .client_send key => some (.client key)
  | .host key _ | .host_send key | .dial key _ => some (.host key)
  | .to_host c => (s.up c).head?.map fun f => .host (c, f.id)
  | .to_client c => do return .client (← s.slug_of c, (← (s.down c).head?).id)
  | _ => none

variable {key : ClientKey σ} {q : Place σ}

theorem stands_set_client {e : End} (hne : q ≠ .client key) :
    (s.set_client key e).stands q = s.stands q := by
  cases q with
  | client k => exact update_of_ne (fun he => hne (by rw [he])) _ _
  | host k => rfl

omit [DecidableEq σ] in
theorem stands_set_host {key : HostKey} {e : End} (hne : q ≠ .host key) :
    (s.set_host key e).stands q = s.stands q := by
  cases q with
  | client k => rfl
  | host k => exact update_of_ne (fun he => hne (by rw [he])) _ _

omit [DecidableEq σ] in
theorem stands_handle_host {c : ℕ} {f : Frame} (hne : q ≠ .host (c, f.id)) :
    (s.handle_host c f).stands q = s.stands q := by
  cases f with
  | tcpOpen id port =>
    rw [State.handle_host]
    split
    · exact stands_set_host hne
    · split
      · cases q <;> rfl
      · rfl
  | tcpData id d | tcpClose id => exact stands_set_host hne

theorem stands_handle_client {slug : σ} {f : Frame} (hne : q ≠ .client (slug, f.id)) :
    (s.handle_client slug f).stands q = s.stands q := by
  cases f with
  | tcpOpen id port => rfl
  | tcpData id d | tcpClose id => exact stands_set_client hne

/-- A stream's step leaves every other end as it was. -/
theorem step_stands {ev : Event σ} (hstep : s.step ev = some s') {p : Place σ}
    (hplace : ev.place s = some p) (hne : q ≠ p) : s'.stands q = s.stands q := by
  cases ev with
  | accept slug port =>
    cases hplace
    cases hstep
    exact stands_set_client hne
  | client key e =>
    cases hplace
    obtain ⟨e', -, hs⟩ := bind_eq_some_iff.mp hstep
    exact some.inj hs ▸ stands_set_client hne
  | client_send key =>
    cases hplace
    obtain ⟨⟨c, frames, e'⟩, -, hs⟩ := bind_eq_some_iff.mp hstep
    cases hs
    exact (stands_set_client hne : (s.set_client key e').stands q = _)
  | host key e =>
    cases hplace
    obtain ⟨e', -, hs⟩ := bind_eq_some_iff.mp hstep
    exact some.inj hs ▸ stands_set_host hne
  | host_send key =>
    cases hplace
    obtain ⟨⟨c, frames, e'⟩, -, hs⟩ := bind_eq_some_iff.mp hstep
    cases hs
    exact (stands_set_host hne : (s.set_host key e').stands q = _)
  | dial key answers =>
    cases hplace
    rw [State.step] at hstep
    split at hstep
    · exact some.inj hstep ▸ stands_set_host hne
    · exact nomatch hstep
  | to_host c =>
    rw [State.step] at hstep
    split at hstep
    next f rest hup =>
      -- the place of the step is the stream of the frame
      rw [Event.place, hup] at hplace
      cases hplace
      split at hstep
      · cases hstep
        exact stands_handle_host hne
      · exact nomatch hstep
    next => exact nomatch hstep
  | to_client c =>
    rw [State.step] at hstep
    split at hstep
    next f rest slug hdown hslug =>
      rw [Event.place, hdown, hslug] at hplace
      cases hplace
      split at hstep
      · cases hstep
        exact stands_handle_client hne
      · exact nomatch hstep
    next => exact nomatch hstep
  | _ => exact nomatch hplace

/-! ## Connections that are gone -/

theorem update_true {up : ℕ → Bool} {c c' : ℕ} (h : update up c true c' = false) :
    up c' = false := by
  by_cases he : c' = c
  · subst he
    rw [update_self] at h
    exact nomatch h
  · rw [update_of_ne he] at h
    exact h

theorem update_true_of {up : ℕ → Bool} {c c' : ℕ} (h : update up c true c' = true) :
    c' = c ∨ up c' = true := by
  by_cases he : c' = c
  · exact Or.inl he
  · rw [update_of_ne he] at h
    exact Or.inr h

/-- What was dropped with a connection stays dropped. -/
structure Gone (s : State σ) : Prop where
  ended : ∀ c, s.dropped c = true → s.client_up c = false ∧ s.slug_of c ≠ none
  client : ∀ key c, s.opened key = some c → s.dropped c = true → (s.client key).entry = none
  host : ∀ c id, s.listens c = false → (s.host (c, id)).entry = none

/-- Only one end changed, and an entry that was gone there is gone. -/
theorem Gone.set_client (h : Gone s) {e : End}
    (hentry : (s.client key).entry = none → e.entry = none) : Gone (s.set_client key e) := by
  refine ⟨h.ended, fun key' c ho hd => ?_, h.host⟩
  change (update s.client key e key').entry = none
  by_cases he : key' = key
  · subst he
    rw [update_self]
    exact hentry (h.client key' c ho hd)
  · rw [update_of_ne he]
    exact h.client key' c ho hd

omit [DecidableEq σ] in
theorem Gone.set_host (h : Gone s) {key : HostKey} {e : End}
    (hentry : s.listens key.1 = false → (s.host key).entry = none → e.entry = none) :
    Gone (s.set_host key e) := by
  refine ⟨h.ended, h.client, fun c id hl => ?_⟩
  change (update s.host key e (c, id)).entry = none
  by_cases he : (c, id) = key
  · subst he
    rw [update_self]
    exact hentry hl (h.host c id hl)
  · rw [update_of_ne he]
    exact h.host c id hl

theorem Gone.client_send (h : Gone s) (hstep : s.client_send key = some s') :
    Gone s' := by
  obtain ⟨⟨c, frames, e⟩, hsend, hs⟩ := bind_eq_some_iff.mp hstep
  cases hs
  have hset : Gone (s.set_client key e) := h.set_client (send_entry hsend)
  have htx := (send_sent hsend).tx
  refine ⟨hset.ended, fun key' c' ho hd => ?_, hset.host⟩
  change (if ((s.client key).reader.is_opening && s.client_up ((s.client key).reader.tx.getD 0)) = true
    then update s.opened key (some c) else s.opened) key' = some c' at ho
  rw [htx] at ho
  split at ho
  next hopens =>
    rw [Bool.and_eq_true] at hopens
    by_cases he : key' = key
    · subst he
      rw [update_self] at ho
      cases ho
      exact Bool.noConfusion ((h.ended c hd).1.symm.trans hopens.2)
    · rw [update_of_ne he] at ho
      exact hset.client key' c' ho hd
  next => exact hset.client key' c' ho hd

omit [DecidableEq σ] in
theorem Gone.handle_host (h : Gone s) {c : ℕ} (hl : s.listens c = true) (f : Frame) :
    Gone (s.handle_host c f) := by
  have hset : ∀ id e, Gone (s.set_host (c, id) e) := fun id e => h.set_host fun hl' =>
    Bool.noConfusion (hl.symm.trans hl')
  cases f with
  | tcpOpen id port =>
    rw [State.handle_host]
    split
    · exact hset id _
    · split
      · exact ⟨h.ended, h.client, h.host⟩
      · exact h
  | tcpData id d | tcpClose id => exact hset id _

theorem Gone.handle_client (h : Gone s) (slug : σ) (f : Frame) : Gone (s.handle_client slug f) := by
  cases f with
  | tcpOpen id port => exact h
  | tcpData id d => exact h.set_client fun hnone => by rw [deliver_entry hnone]; exact hnone
  | tcpClose id => exact h.set_client fun hnone => by rw [end_writing_entry hnone]; exact hnone

theorem forget_entry {slug : σ} (h : (s.client key).entry = none ∨ key.1 = slug) :
    ((s.forget_slug slug).client key).entry = none := by
  change End.entry (if key.1 = slug then _ else _) = none
  split
  next => rfl
  next hne => exact h.resolve_right hne

theorem Gone.step (h : Gone s) (hinv : Inv s) {ev : Event σ} (hstep : s.step ev = some s') : Gone s' := by
  cases ev with
  | accept slug port =>
    cases hstep
    have hnone := (hinv.conns.ids (slug, s.next_id) (Nat.le_refl _)).2
    refine ⟨h.ended, fun key c ho hd => ?_, h.host⟩
    have hne : key ≠ (slug, s.next_id) := fun he => by
      rw [he] at ho
      exact nomatch hnone.symm.trans ho
    change (update s.client _ _ key).entry = none
    rw [update_of_ne hne]
    exact h.client key c ho hd
  | client key e =>
    obtain ⟨e', he, hs⟩ := bind_eq_some_iff.mp hstep
    exact some.inj hs ▸ h.set_client (step_entry he)
  | client_send key => exact h.client_send hstep
  | host key e =>
    obtain ⟨e', he, hs⟩ := bind_eq_some_iff.mp hstep
    exact some.inj hs ▸ h.set_host fun _ => step_entry he
  | host_send key =>
    obtain ⟨⟨c, frames, e'⟩, he, hs⟩ := bind_eq_some_iff.mp hstep
    cases hs
    have hset : Gone (s.set_host key e') := h.set_host fun _ => send_entry he
    exact ⟨hset.ended, hset.client, hset.host⟩
  | dial key answers =>
    rw [State.step] at hstep
    split at hstep
    · refine some.inj hstep ▸ h.set_host fun _ hnone => ?_
      split
      · exact hnone
      · rfl
    · exact nomatch hstep
  | to_host c =>
    rw [State.step] at hstep
    split at hstep
    next f rest hup =>
      split at hstep
      next hl =>
        cases hstep
        have hpop : Gone { s with up := update s.up c rest } := ⟨h.ended, h.client, h.host⟩
        exact hpop.handle_host hl f
      next => exact nomatch hstep
    next => exact nomatch hstep
  | to_client c =>
    rw [State.step] at hstep
    split at hstep
    next f rest slug hdown hslug =>
      split at hstep
      · cases hstep
        have hpop : Gone { s with down := update s.down c rest } := ⟨h.ended, h.client, h.host⟩
        exact hpop.handle_client slug f
      · exact nomatch hstep
    next => exact nomatch hstep
  | connect slug =>
    cases hstep
    -- the number is new
    have hnew : ∀ c, s.dropped c = true → c ≠ s.next_conn := fun c hd he => by
      obtain ⟨-, hslug⟩ := h.ended c hd
      cases hs : s.slug_of c with
      | none => exact hslug hs
      | some slug' => exact absurd (hinv.conns.slug c slug' hs) (he ▸ Nat.lt_irrefl _)
    refine ⟨fun c hd => ?_, h.client, fun c id hl => h.host c id ?_⟩
    · obtain ⟨hdown, hslug⟩ := h.ended c hd
      exact ⟨(update_of_ne (hnew c hd) _ _).trans hdown,
        fun hn => hslug ((update_of_ne (hnew c hd) _ _).symm.trans hn)⟩
    · exact update_true hl
  | let_go slug =>
    cases hstep
    exact ⟨h.ended, h.client, h.host⟩
  | drop_streams slug =>
    cases hstep
    exact ⟨h.ended, fun key c ho hd => forget_entry (Or.inl (h.client key c ho hd)), h.host⟩
  | session_ends c =>
    cases hstep
    refine ⟨fun c' hd => ⟨?_, (h.ended c' hd).2⟩, h.client, h.host⟩
    exact Bool.eq_false_iff.mpr fun hup => Bool.noConfusion ((h.ended c' hd).1.symm.trans (update_false hup))
  | drop_client_conn c =>
    rw [State.step] at hstep
    split at hstep
    next slug hslug =>
      split at hstep
      next hdown =>
        cases hstep
        refine ⟨fun c' hd => ?_, fun key c' ho hd => ?_, h.host⟩
        · rcases update_true_of hd with rfl | hold
          · exact ⟨hdown, fun hn => (nomatch hn.symm.trans hslug)⟩
          · exact h.ended c' hold
        · refine forget_entry ?_
          rcases update_true_of hd with rfl | hold
          · exact Or.inr (some.inj ((hinv.conns.opened key c' ho).1.symm.trans hslug))
          · exact Or.inl (h.client key c' ho hold)
      next => exact nomatch hstep
    next => exact nomatch hstep
  | drop_host_conn c =>
    cases hstep
    refine ⟨h.ended, h.client, fun c' id hl => ?_⟩
    change End.entry (if c' = c then _ else _) = none
    split
    next => rfl
    next hne => exact h.host c' id ((update_of_ne hne _ _).symm.trans hl)
  | host_ends c =>
    rw [State.step] at hstep
    split at hstep
    · cases hstep
      exact ⟨h.ended, h.client, h.host⟩
    · exact nomatch hstep

omit [DecidableEq σ] in
theorem Gone.init : Gone ({} : State σ) :=
  ⟨fun _ h => (nomatch h), fun _ _ h => (nomatch h), fun _ _ _ => rfl⟩

theorem gone_of_reachable (h : Reachable system s) : Gone s := by
  have hboth : Inv s ∧ Gone s := h.invariant (P := fun s => Inv s ∧ Gone s)
    (fun s (h0 : s = {}) => h0 ▸ ⟨Inv.init, Gone.init⟩)
    fun _ _ _ hinv hstep => ⟨hinv.1.step hstep, hinv.2.step hinv.1 hstep⟩
  exact hboth.2

/-! ## The tunnel -/

/-- Nothing more is read at this end, and a `tcpClose` told the same of the far end. -/
def End.both_ended (e : End) : Prop := e.reader = .over ∧ e.half_closed = true

/-- There was no socket to be had: the dial failed, or `tcpOpen` could not be sent. -/
def End.failed (e : End) : Prop := e.reader.hopeless = true

/-- What one end wrote, against what the other one read. -/
structure Carried (far near : End) : Prop where
  in_order : near.written <+: far.read
  shut : near.half_closed = true → near.writer = .shut → near.written = far.read

theorem Flow.carried {far near : End} {frames : List Frame} {sent : List UInt8}
    {reaches takes done : Prop} (h : Flow far near frames reaches takes done sent) (htidy : Tidy near) :
    Carried far near := by
  refine ⟨((prefix_append _ _).trans h.got).trans h.read, fun hhalf hshut => ?_⟩
  have hgot := (h.half_closed hhalf).2 (by rw [hshut]; exact Writer.noConfusion)
  rw [End.got, htidy.emptied (by rw [hshut]; rfl)] at hgot
  exact (append_nil _).symm.trans hgot

theorem Tidy.both_ended {e : End} (h : Tidy e) (hboth : e.both_ended) : e.entry = none := by
  cases hst : e.entry with
  | none => rfl
  | some st =>
    have hinbox := h.inbox st hst
    rw [hboth.2] at hinbox
    rcases h.kept st hst with hin | hread
    · exact nomatch hinbox.symm.trans hin
    · exact Bool.noConfusion (hread.symm.trans ((h.read_done st hst).mpr hboth.1))

omit [DecidableEq σ] in
theorem Inv.tidy (h : Inv s) (p : Place σ) : Tidy (s.stands p) := by
  cases p with
  | client key => exact (h.streams key).tidy
  | host key =>
    by_cases hne : s.host key = {}
    · change Tidy (s.host key)
      rw [hne]
      exact Tidy.start
    · have hplace : s.host (key.1, key.2) ≠ {} := hne
      obtain ⟨slug, -, ho⟩ := h.opened_of_host hplace
      exact ((h.streams (slug, key.2)).link key.1 ho).tidy

/-- In every state of every run, each stream's bytes are carried in order between the two ends
it has, a stream's step is felt at one end only, and no entry outlives its stream's two
directions, a failed dial or its connection. -/
theorem tunnel_in_order (h : Reachable system s) :
    (∀ key c, s.opened key = some c → Carried (s.client key) (s.host (c, key.2)) ∧
      Carried (s.host (c, key.2)) (s.client key)) ∧
    (∀ key, s.opened key = none → (s.client key).written = []) ∧
    (∀ c id, s.host (c, id) ≠ {} → ∃ slug, s.slug_of c = some slug ∧ s.opened (slug, id) = some c) ∧
    (∀ ev s' p, s.step ev = some s' → ev.place s = some p → ∀ q, q ≠ p → s'.stands q = s.stands q) ∧
    (∀ p, (s.stands p).both_ended ∨ (s.stands p).failed → (s.stands p).entry = none) ∧
    (∀ key c, s.opened key = some c → s.dropped c = true → (s.client key).entry = none) ∧
    ∀ c id, s.listens c = false → (s.host (c, id)).entry = none := by
  have hinv := inv_of_reachable h
  have hgone := gone_of_reachable h
  refine ⟨fun key c ho => ?_, fun key hn => ?_, fun c id => hinv.opened_of_host,
    fun ev s' p hstep hplace q => step_stands hstep hplace, fun p hp => ?_, hgone.client, hgone.host⟩
  · have hlink := (hinv.streams key).link c ho
    obtain ⟨sent, hup⟩ := hlink.up
    obtain ⟨sent', hdown⟩ := hlink.down
    exact ⟨hup.carried hlink.tidy, hdown.carried (hinv.streams key).tidy⟩
  · exact (append_eq_nil_iff.mp ((hinv.streams key).unopened hn).2.1).1
  · rcases hp with hboth | hfailed
    · exact (hinv.tidy p).both_ended hboth
    · exact (hinv.tidy p).hopeless hfailed

end

/-! ### Two runs -/

/-- A stream is opened. -/
def opened_run : List (Event Unit) :=
  [.connect (), .accept () 80, .client ((), 1) .take, .client_send ((), 1), .to_host 0]

/-- And two bytes come through. -/
def carried_run : List (Event Unit) :=
  opened_run ++ [Event.dial (0, 1) true, Event.host (0, 1) .run_pipe, Event.client ((), 1) .run_pipe,
    Event.client ((), 1) (.read [104, 105]), Event.client ((), 1) .take, Event.client_send ((), 1),
    Event.to_host 0, Event.host (0, 1) .write]

theorem tunnel_in_order_two_bytes :
    ∃ s : State Unit, Reachable system s ∧ (s.host (0, 1)).written = [104, 105] ∧
      (s.host (0, 1)).written <+: (s.client ((), 1)).read := by
  have hstart : Reachable system ({} : State Unit) := .start rfl
  have hrun : Reachable system _ :=
    hstart.run (fun _ _ _ h => h) (rfl : carried_run.foldlM State.step _ = some _)
  exact ⟨_, hrun, rfl, ((tunnel_in_order hrun).1 ((), 1) 0 rfl).1.in_order⟩

/-- Nothing answers, and the client is told. -/
def unanswered_run : List (Event Unit) :=
  opened_run ++ [Event.dial (0, 1) false, Event.host (0, 1) .take, Event.host_send (0, 1),
    Event.to_client 0]

/-- The dial failed and nothing is on its way, but the client's entry is there. -/
theorem entry_after_failed_dial :
    ∃ s : State Unit, Reachable system s ∧ s.opened ((), 1) = some 0 ∧ (s.host (0, 1)).failed ∧
      s.up 0 = [] ∧ s.down 0 = [] ∧
      (s.client ((), 1)).entry = some { inbox := false, read_done := false } := by
  have hstart : Reachable system ({} : State Unit) := .start rfl
  have hrun : Reachable system _ :=
    hstart.run (fun _ _ _ h => h) (rfl : unanswered_run.foldlM State.step _ = some _)
  exact ⟨_, hrun, rfl, rfl, rfl, rfl, rfl⟩

end Lpm.PortTunnel
