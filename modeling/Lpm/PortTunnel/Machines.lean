/-
What the host does, what arrives, and connections that come and go.

A step at the host changes one stream's end and the two queues of its connection
(`State.at_host`). Every such step is the same argument: the stream is opened on that
connection, its link takes the step, and no other stream sees anything.
-/
import Lpm.PortTunnel.Order

set_option autoImplicit false

namespace Lpm.PortTunnel

open List Option Function

section
variable {σ : Type} [DecidableEq σ] {s s' : State σ} {c id : ℕ} {slug : σ} {e : End}

/-! ## The host -/

omit [DecidableEq σ] in
/-- One end on the host and the queues of its connection. -/
def State.at_host (s : State σ) (c id : ℕ) (e : End) (ups downs : List Frame) : State σ :=
  { s.set_host (c, id) e with
    up := update s.up c ups
    down := update s.down c downs }

/-- A queue as the streams see it that are not concerned. -/
def Apart (id : ℕ) (frames frames' : List Frame) : Prop :=
  ∀ id', id' ≠ id → of_id id' frames' = of_id id' frames

theorem Apart.refl (frames : List Frame) : Apart id frames frames := fun _ _ => rfl

theorem Apart.send {frames new : List Frame} (h : ∀ f ∈ new, f.id = id) :
    Apart id frames (frames ++ new) := fun id' hne => by
  rw [of_id_append, of_id_none h hne, append_nil]

variable {rest : List Frame}

theorem Apart.pop {f : Frame} : Apart f.id (f :: rest) rest := fun id' hne => by
  rw [of_id, of_id, filter_cons_of_neg (by simpa using Ne.symm hne)]

theorem Apart.of_update {lane : ℕ → List Frame} {frames : List Frame} (h : Apart id (lane c) frames)
    {c' id' : ℕ} (hne : (c', id') ≠ (c, id)) :
    of_id id' (update lane c frames c') = of_id id' (lane c') := by
  by_cases hc : c' = c
  · subst hc
    have hid : id' ≠ id := fun he => hne (by rw [he])
    rw [update_self]
    exact h id' hid
  · rw [update_of_ne hc]

omit [DecidableEq σ] in
theorem same_at_host {ups downs : List Frame} (hslug : s.slug_of c = some slug)
    (hups : Apart id (s.up c) ups) (hdowns : Apart id (s.down c) downs) {key : ClientKey σ}
    (hne : key ≠ (slug, id)) : Same s (s.at_host c id e ups downs) key where
  client := rfl
  opened := rfl
  conns _ hs := ⟨Or.inl hs, update_of_ne (other_place hslug hne hs) _ _,
    hups.of_update (other_place hslug hne hs), hdowns.of_update (other_place hslug hne hs)⟩
  slug _ h := h
  reaches _ _ hr := hr
  host_up _ _ h := h

omit [DecidableEq σ] in
theorem Conns.at_host (h : Conns s) (hslug : s.slug_of c = some slug)
    (htx : ∀ c', e.reader.tx = some c' → c' = c) (hopen : e ≠ {} → e.reader.unopened = false)
    (ups downs : List Frame) : Conns (s.at_host c id e ups downs) := by
  refine ⟨h.slug, fun c' hc' => ?_, h.out, h.tx, h.opened, h.ids, fun key c' hc' => ?_, fun key hne => ?_⟩
  · have hne : c' ≠ c := fun he => by
      rw [he] at hc'
      exact nomatch hc'.symm.trans hslug
    obtain ⟨hup, hdown, hhost⟩ := h.unused c' hc'
    refine ⟨(update_of_ne hne _ _).trans hup, (update_of_ne hne _ _).trans hdown,
      fun id' => ?_⟩
    exact (update_of_ne (fun he => hne (Prod.mk.inj he).1) _ _).trans (hhost id')
  · change (update s.host (c, id) e key).reader.tx = _ at hc'
    by_cases he : key = (c, id)
    · subst he
      rw [update_self] at hc'
      exact htx c' hc'
    · rw [update_of_ne he] at hc'
      exact h.host_tx key c' hc'
  · change (update s.host (c, id) e key) ≠ _ at hne
    change (update s.host (c, id) e key).reader.unopened = _
    by_cases he : key = (c, id)
    · subst he
      rw [update_self] at hne ⊢
      exact hopen hne
    · rw [update_of_ne he] at hne ⊢
      exact h.host_open key hne

/-- The one argument for all that happens at the host. -/
theorem Inv.at_host (h : Inv s) (hslug : s.slug_of c = some slug) (ho : s.opened (slug, id) = some c)
    (htx : ∀ c', e.reader.tx = some c' → c' = c) (hopen : e ≠ {} → e.reader.unopened = false)
    {ups downs : List Frame}
    (hups : Apart id (s.up c) ups) (hdowns : Apart id (s.down c) downs)
    (hlink : Link (s.client (slug, id)) e (of_id id ups) (of_id id downs) (s.reaches (slug, id) c)
      (s.host_up c = true)) : Inv (s.at_host c id e ups downs) := by
  have hok := h.streams (slug, id)
  refine ⟨h.conns.at_host hslug htx hopen ups downs, streams_of h (slug, id)
    (fun key hne => same_at_host hslug hups hdowns hne)
    ⟨hok.tidy, fun hn => (nomatch ho.symm.trans hn), fun c' hs hne => ?_, fun c' hc' => ?_⟩⟩
  · have hc : c' ≠ c := fun he => hne (he ▸ ho)
    have hplace : (c', id) ≠ (c, id) := fun he => hc (Prod.mk.inj he).1
    change update s.host (c, id) e (c', id) = _ ∧
      of_id id (update s.down c downs c') = _ ∧
      ¬ Waiting (of_id id (update s.up c ups c'))
    rw [update_of_ne hplace, update_of_ne hc, update_of_ne hc]
    exact hok.elsewhere c' hs hne
  · obtain rfl := some.inj (ho.symm.trans hc')
    change Link _ (update s.host (c, id) e (c, id)) (of_id id (update s.up c ups c))
      (of_id id (update s.down c downs c)) _ _
    rw [update_self, update_self, update_self]
    exact hlink

omit [DecidableEq σ] in
theorem set_host_eq (s : State σ) (c id : ℕ) (e : End) :
    s.set_host (c, id) e = s.at_host c id e (s.up c) (s.down c) := by
  rw [State.at_host, update_eq_self, update_eq_self]
  rfl

/-- The host's end of a stream goes on by itself. -/
theorem Inv.set_host (h : Inv s) (hhost : s.host (c, id) ≠ {})
    (htx : ∀ c', e.reader.tx = some c' → c' = c) (hopen : e.reader.unopened = false)
    (hlink : ∀ client ups downs creach hreach, Link client (s.host (c, id)) ups downs creach hreach →
      Link client e ups downs creach hreach) : Inv (s.set_host (c, id) e) := by
  obtain ⟨slug, hslug, ho⟩ := h.opened_of_host hhost
  rw [set_host_eq]
  exact h.at_host hslug ho htx (fun _ => hopen) (Apart.refl _) (Apart.refl _)
    (hlink _ _ _ _ _ ((h.streams (slug, id)).link c ho))

theorem Inv.host_step (h : Inv s) {ev : EndEvent}
    (hstep : (s.host (c, id)).step (some c) ev = some e) : Inv (s.set_host (c, id) e) := by
  have hne : s.host (c, id) ≠ {} := fun he => by
    rw [he, step_untouched] at hstep
    exact nomatch hstep
  have hopen := (step_unopened hstep).trans (h.conns.host_open _ hne)
  refine h.set_host hne (fun c' hc' => ?_) hopen fun _ _ _ _ _ hlink => hlink.host_step hstep
  rcases (step_far hstep).tx hc' with hold | hout
  · exact h.conns.host_tx (c, id) c' hold
  · exact (some.inj hout).symm

theorem Inv.dial (h : Inv s) (hreader : (s.host (c, id)).reader = .dialing) (answers : Bool) :
    Inv (s.set_host (c, id) (if answers then { s.host (c, id) with reader := .piping }
      else (s.host (c, id)).abandon (.failing none))) := by
  have hne : s.host (c, id) ≠ {} := fun he => by
    rw [he] at hreader
    exact nomatch hreader
  cases answers with
  | true => exact h.set_host hne (fun c' hc' => (nomatch hc')) rfl fun _ _ _ _ _ hlink => hlink.host_answers hreader
  | false => exact h.set_host hne (fun c' hc' => (nomatch hc')) rfl fun _ _ _ _ _ hlink => hlink.host_fails hreader

/-- A thread of the host sends. -/
theorem Inv.host_send (h : Inv s) (hstep : s.host_send (c, id) = some s') : Inv s' := by
  obtain ⟨⟨c', frames, e⟩, hsend, hrest⟩ := bind_eq_some_iff.mp hstep
  have hsent := send_sent hsend
  have htx := hsent.tx
  obtain rfl := h.conns.host_tx (c, id) c' htx
  -- the end that sends is there, so the client has opened its stream
  have hne : s.host (c', id) ≠ {} := fun he => by
    rw [he] at htx
    exact nomatch htx
  obtain ⟨slug, hslug, ho⟩ := h.opened_of_host hne
  have hok := h.streams (slug, id)
  have hlink := hok.link c' ho
  have htidy : Tidy e := hlink.tidy.send hsend
  have htx' : ∀ c1, e.reader.tx = some c1 → c1 = c' := fun c1 hc => (nomatch hsent.tx_none.symm.trans hc)
  have hids := hsent.ids
  cases hrest
  have hsame : (s.set_host (c', id) e).send_down c' frames =
      s.at_host c' id e (s.up c') (s.down c' ++ frames) := by
    rw [State.at_host, update_eq_self]
    rfl
  change Inv ((s.set_host (c', id) e).send_down c' frames)
  rw [hsame]
  have hopen := h.conns.host_open _ hne
  refine h.at_host hslug ho htx' (fun _ => hsent.open hopen) (Apart.refl _) (Apart.send hids) ?_
  rw [of_id_append, of_id_all hids]
  cases hsent with
  | opens port hr hup | refused port hr hup =>
    rw [hr] at hopen
    exact nomatch hopen
  | data bytes hr hup => exact hlink.host_data hup hr htidy id
  | lost bytes hr hup =>
    rw [append_nil]
    refine hlink.host_goes hne htidy (Near.goes _ _) (.gives_up rfl rfl rfl (by rw [hr]; rfl))
      (fun hup' => hup') fun _ _ hup' => ?_
    exact Bool.noConfusion (hup.symm.trans hup')
  | closes next hr =>
    -- closing or failing, nothing of what was read is left to send
    have hplace : (s.host (c', id)).reader.pending = [] ∧ next.pending = [] ∧ next.done = true ∧
        next.tx = none := by
      obtain ⟨hr, rfl⟩ | ⟨hr, rfl⟩ := hr <;> rw [hr] <;> exact ⟨rfl, rfl, rfl, rfl⟩
    obtain ⟨hpending, hempty, hdone, hnotx⟩ := hplace
    split
    next hup => exact hlink.host_close hup hne hpending hempty hdone htidy id
    next =>
      rw [append_nil]
      refine hlink.host_goes hne htidy (Near.goes _ _) (?_ : Far (some 0) _ _) (fun hup => hup)
        fun h0 => (nomatch h0)
      exact .goes rfl (hempty.trans hpending.symm) (fun _ => hdone) fun _ htx => (nomatch hnotx.symm.trans htx)

/-! ## Frames arrive at the host -/

/-- A frame of a stream that was opened on another connection is taken off. -/
theorem Inv.passes (h : Inv s) (hslug : s.slug_of c = some slug) {f : Frame}
    (hup : s.up c = f :: rest) (ho : s.opened (slug, f.id) ≠ some c) :
    Inv (s.at_host c f.id {} rest (s.down c)) := by
  have hok := h.streams (slug, f.id)
  have hhead := of_id_head hup
  have hups : Apart f.id (s.up c) rest := hup ▸ Apart.pop
  obtain ⟨hhost, hdown, hwait⟩ := hok.elsewhere c hslug ho
  have hopened : s.opened (slug, f.id) ≠ none := fun hn => by
    have hempty := (hok.unopened hn).2.2.2 c hslug
    rw [hhead] at hempty
    exact cons_ne_nil _ _ hempty
  refine ⟨h.conns.at_host (e := {}) hslug (fun c' hc' => (nomatch hc')) (fun hne => absurd rfl hne) rest (s.down c),
    streams_of h (slug, f.id) (fun key hne => same_at_host hslug hups (Apart.refl _) hne)
    ⟨hok.tidy, fun hn => absurd hn hopened, fun c' hs hne => ?_, fun c' hc' => ?_⟩⟩
  · change update s.host (c, f.id) {} (c', f.id) = _ ∧
      of_id f.id (update s.down c (s.down c) c') = _ ∧
      ¬ Waiting (of_id f.id (update s.up c rest c'))
    rw [update_eq_self]
    by_cases hc : c' = c
    · subst hc
      rw [update_self, update_self]
      refine ⟨rfl, hdown, fun ⟨g, hg, hopens⟩ => hwait ⟨g, ?_, hopens⟩⟩
      rw [hhead]
      exact mem_cons_of_mem _ hg
    · rw [update_of_ne (fun he => hc (Prod.mk.inj he).1), update_of_ne hc]
      exact hok.elsewhere c' hs hne
  · have hc : c' ≠ c := fun he => ho (he ▸ hc')
    change Link _ (update s.host (c, f.id) {} (c', f.id))
      (of_id f.id (update s.up c rest c')) (of_id f.id (update s.down c (s.down c) c')) _ _
    rw [update_eq_self, update_of_ne (fun he => hc (Prod.mk.inj he).1),
      update_of_ne hc]
    exact hok.link c' hc'

omit [DecidableEq σ] in
theorem set_host_popped (s : State σ) (c id : ℕ) (e : End) (rest : List Frame) :
    { s with up := update s.up c rest }.set_host (c, id) e =
      s.at_host c id e rest (s.down c) := by
  rw [State.at_host, update_eq_self]
  rfl

omit [DecidableEq σ] in
theorem popped_eq (s : State σ) (c id : ℕ) (rest : List Frame) :
    { s with up := update s.up c rest } =
      s.at_host c id (s.host (c, id)) rest (s.down c) := by
  rw [← set_host_popped, State.set_host, update_eq_self]

omit [DecidableEq σ] in
theorem refused_eq (s : State σ) (c id : ℕ) (rest frames : List Frame) :
    { s with up := update s.up c rest }.send_down c frames =
      s.at_host c id (s.host (c, id)) rest (s.down c ++ frames) := by
  rw [State.at_host, State.set_host, update_eq_self]
  rfl

/-- A frame arrives at the host. -/
theorem Inv.to_host (h : Inv s) {f : Frame} (hup : s.up c = f :: rest) :
    Inv ({ s with up := update s.up c rest }.handle_host c f) := by
  cases hslug : s.slug_of c with
  | none =>
    rw [(h.conns.unused c hslug).1] at hup
    exact nomatch hup
  | some slug =>
    have hups : Apart f.id (s.up c) rest := hup ▸ Apart.pop
    have hhead := of_id_head hup
    have htx := h.conns.host_tx (c, f.id)
    have hopen := h.conns.host_open (c, f.id)
    -- the frame belongs to the stream that is open, or comes late for one that is over
    by_cases ho : s.opened (slug, f.id) = some c
    · have hlink := (h.streams (slug, f.id)).link c ho
      change Link _ (s.host (c, f.id)) _ _ _ _ at hlink
      rw [hhead] at hlink
      cases f with
      | tcpOpen id port =>
        rw [State.handle_host]
        split
        next =>
          rw [set_host_popped]
          refine h.at_host hslug ho (fun c' hc' => ?_) (fun _ => rfl) hups (Apart.refl _)
            hlink.host_registers
          exact nomatch hc'
        next =>
          have hrefuses : Link _ _ _ (if s.host_up c = true then _ else _) _ _ := hlink.host_refuses id
          split
          next hanswers =>
            rw [if_pos hanswers] at hrefuses
            rw [refused_eq s c id]
            have hids : ∀ g ∈ [Frame.tcpClose id], g.id = (Frame.tcpOpen id port).id := fun g hg => by
              rw [mem_singleton.mp hg]
              rfl
            refine h.at_host hslug ho htx hopen hups (Apart.send hids) ?_
            rw [of_id_append, of_id_all hids]
            exact hrefuses
          next hsilent =>
            rw [if_neg hsilent] at hrefuses
            rw [popped_eq s c id]
            exact h.at_host hslug ho htx hopen hups (Apart.refl _) hrefuses
      | tcpData id d =>
        rw [State.handle_host, set_host_popped]
        obtain ⟨-, hreader⟩ := deliver_reader (s.host (c, id)) d
        refine h.at_host hslug ho (hreader ▸ htx) (fun hne => ?_) hups (Apart.refl _) hlink.host_takes_data
        refine (congrArg _ hreader).trans (hopen fun he => hne ?_)
        change (s.host (c, id)).deliver d = {}
        rw [show s.host (c, id) = {} from he]
        rfl
      | tcpClose id =>
        rw [State.handle_host, set_host_popped]
        obtain ⟨-, hreader⟩ := end_writing_reader (s.host (c, id))
        refine h.at_host hslug ho (hreader ▸ htx) (fun hne => ?_) hups (Apart.refl _) hlink.host_takes_close
        refine (congrArg _ hreader).trans (hopen fun he => hne ?_)
        change (s.host (c, id)).end_writing = {}
        rw [show s.host (c, id) = {} from he]
        rfl
    · obtain ⟨hhost, -, hwait⟩ := (h.streams (slug, f.id)).elsewhere c hslug ho
      have hpass := h.passes hslug hup ho
      cases f with
      | tcpOpen id port =>
        rw [hhead] at hwait
        exact absurd ⟨_, mem_cons_self, rfl⟩ hwait
      | tcpData id d =>
        rw [State.handle_host, set_host_popped]
        change Inv (s.at_host c id ((s.host (c, id)).deliver d) rest (s.down c))
        rw [show s.host (c, id) = {} from hhost]
        exact hpass
      | tcpClose id =>
        rw [State.handle_host, set_host_popped]
        change Inv (s.at_host c id (s.host (c, id)).end_writing rest (s.down c))
        rw [show s.host (c, id) = {} from hhost]
        exact hpass

/-! ## Frames arrive at the client -/

/-- The client's end of a stream, and what is left of a queue to it. -/
def State.at_client (s : State σ) (key : ClientKey σ) (c : ℕ) (e : End) (downs : List Frame) : State σ :=
  { s with down := update s.down c downs }.set_client key e

theorem same_at_client {key : ClientKey σ} (hslug : s.slug_of c = some slug)
    (hdowns : Apart id (s.down c) rest) (hne : key ≠ (slug, id)) :
    Same s (s.at_client (slug, id) c e rest) key where
  client := update_of_ne hne _ _
  opened := rfl
  conns _ hs := ⟨Or.inl hs, rfl, rfl, hdowns.of_update (other_place hslug hne hs)⟩
  slug _ h := h
  reaches _ _ hr := by
    have hsame : (s.at_client (slug, id) c e rest).client key = s.client key :=
      update_of_ne hne _ _
    exact reaches_congr hr rfl rfl hsame
  host_up _ _ h := h

/-- The one argument for all that arrives at the client. -/
theorem Inv.at_client (h : Inv s) (hslug : s.slug_of c = some slug) (ho : s.opened (slug, id) = some c)
    (hdowns : Apart id (s.down c) rest)
    (hreader : e.reader = (s.client (slug, id)).reader) (htidy : Tidy e)
    (hlink : Link e (s.host (c, id)) (of_id id (s.up c)) (of_id id rest) (s.reaches (slug, id) c)
      (s.host_up c = true)) : Inv (s.at_client (slug, id) c e rest) := by
  have hok := h.streams (slug, id)
  have hlt : id < s.next_id := by
    by_contra hle
    exact nomatch ho.symm.trans (h.conns.ids (slug, id) (Nat.not_lt.mp hle)).2
  have hset : Conns (s.set_client (slug, id) e) := h.conns.set_client hlt fun c' hc' =>
    Or.inl (hreader ▸ hc')
  have hnew : (s.at_client (slug, id) c e rest).client (slug, id) = e := update_self ..
  refine ⟨⟨h.conns.slug, fun c' hc' => ?_, h.conns.out, hset.tx, h.conns.opened, hset.ids,
    h.conns.host_tx, h.conns.host_open⟩, streams_of h (slug, id)
    (fun key hne => same_at_client hslug hdowns hne)
    ⟨by rw [hnew]; exact htidy, fun hn => (nomatch ho.symm.trans hn), fun c' hs hne => ?_, fun c' hc' => ?_⟩⟩
  · have hne : c' ≠ c := fun he => by
      rw [he] at hc'
      exact nomatch hc'.symm.trans hslug
    obtain ⟨hup, hdown, hhost⟩ := h.conns.unused c' hc'
    exact ⟨hup, (update_of_ne hne _ _).trans hdown, hhost⟩
  · have hc : c' ≠ c := fun he => hne (he ▸ ho)
    change s.host (c', id) = _ ∧ of_id id (update s.down c rest c') = _ ∧
      ¬ Waiting (of_id id (s.up c'))
    rw [update_of_ne hc]
    exact hok.elsewhere c' hs hne
  · obtain rfl := some.inj (ho.symm.trans hc')
    rw [hnew]
    change Link _ (s.host (c, id)) (of_id id (s.up c)) (of_id id (update s.down c rest c)) _ _
    rw [update_self]
    refine hlink.weaken (fun hr => ⟨hr.1, hr.2.imp_right fun htx => ?_⟩) fun hup => hup
    rw [hnew] at htx
    exact hreader ▸ htx

/-- A frame arrives at the client. -/
theorem Inv.to_client (h : Inv s) (hslug : s.slug_of c = some slug) {f : Frame}
    (hdown : s.down c = f :: rest) :
    Inv ({ s with down := update s.down c rest }.handle_client slug f) := by
  have hok := h.streams (slug, f.id)
  have hhead := of_id_head hdown
  have hdowns : Apart f.id (s.down c) rest := hdown ▸ Apart.pop
  have ho : s.opened (slug, f.id) = some c := by
    by_contra ho
    have hempty := (hok.elsewhere c hslug ho).2.1
    rw [hhead] at hempty
    exact cons_ne_nil _ _ hempty
  have hlink := hok.link c ho
  change Link _ _ _ (of_id f.id _) _ _ at hlink
  rw [hhead] at hlink
  cases f with
  | tcpOpen id port =>
    have hsame : { s with down := update s.down c rest } =
        s.at_client (slug, id) c (s.client (slug, id)) rest := by
      rw [State.at_client, State.set_client, update_eq_self]
    rw [State.handle_client, hsame]
    exact h.at_client hslug ho hdowns rfl hok.tidy (hlink.client_skips rfl)
  | tcpData id d =>
    exact h.at_client hslug ho hdowns (deliver_reader _ d).2 (hok.tidy.deliver d)
      (hlink.client_takes_data hok.tidy)
  | tcpClose id =>
    exact h.at_client hslug ho hdowns (end_writing_reader _).2 hok.tidy.end_writing
      (hlink.client_takes_close hok.tidy)

/-! ## Connections come and go -/

/-- A machine is connected to. -/
theorem Inv.connect (h : Inv s) (slug : σ) : Inv
    { s with
      next_conn := s.next_conn + 1
      out := update s.out slug (some s.next_conn)
      slug_of := update s.slug_of s.next_conn (some slug)
      client_up := update s.client_up s.next_conn true
      host_up := update s.host_up s.next_conn true
      listens := update s.listens s.next_conn true } := by
  have hnone : s.slug_of s.next_conn = none := by
    cases hs : s.slug_of s.next_conn with
    | none => rfl
    | some slug' => exact absurd (h.conns.slug _ _ hs) (Nat.lt_irrefl _)
  -- what has a machine is older than the new connection
  have hold : ∀ {c : ℕ} {slug' : σ}, s.slug_of c = some slug' →
      update s.slug_of s.next_conn (some slug) c = some slug' ∧ c < s.next_conn := fun {c slug'} hs => by
    have hlt := h.conns.slug c slug' hs
    exact ⟨(update_of_ne (Nat.ne_of_lt hlt) _ _).trans hs, hlt⟩
  have hout : ∀ {slug' : σ} {c' : ℕ}, update s.out slug (some s.next_conn) slug' = some c' →
      s.out slug' = some c' ∨ slug' = slug ∧ c' = s.next_conn := fun {slug' c'} ho => by
    by_cases he : slug' = slug
    · subst he
      rw [update_self] at ho
      exact Or.inr ⟨rfl, (some.inj ho).symm⟩
    · rw [update_of_ne he] at ho
      exact Or.inl ho
  have hnewer : ∀ {c : ℕ} {slug' : σ}, s.slug_of c = some slug' → (∀ c', s.out slug' = some c' → c ≤ c') →
      ∀ c', update s.out slug (some s.next_conn) slug' = some c' → c ≤ c' := fun hs hle c' hc' => by
    rcases hout hc' with ho | ⟨-, rfl⟩
    · exact hle c' ho
    · exact Nat.le_of_lt (hold hs).2
  refine ⟨⟨fun c slug' hs => ?_, fun c hs => ?_, fun slug' c ho => ?_, fun key c hc => ?_,
    fun key c ho => ?_, h.conns.ids, h.conns.host_tx, h.conns.host_open⟩, fun key => ?_⟩
  · change update s.slug_of s.next_conn (some slug) c = _ at hs
    by_cases he : c = s.next_conn
    · rw [he]
      exact Nat.lt_succ_self _
    · rw [update_of_ne he] at hs
      exact Nat.lt_succ_of_lt (h.conns.slug c slug' hs)
  · change update s.slug_of s.next_conn (some slug) c = _ at hs
    by_cases he : c = s.next_conn
    · rw [he, update_self] at hs
      exact nomatch hs
    · rw [update_of_ne he] at hs
      exact h.conns.unused c hs
  · rcases hout ho with ho | ⟨rfl, rfl⟩
    · exact (hold (h.conns.out slug' c ho)).1
    · exact update_self ..
  · obtain ⟨hs, hle, hopened⟩ := h.conns.tx key c hc
    exact ⟨(hold hs).1, hnewer hs hle, hopened⟩
  · obtain ⟨hs, hle⟩ := h.conns.opened key c ho
    exact ⟨(hold hs).1, hnewer hs hle⟩
  · refine (h.streams key).frame h.conns ⟨rfl, rfl, fun c hs => ⟨?_, rfl, rfl, rfl⟩, fun c hs => (hold hs).1,
      fun c ho hr => ?_, fun c ho hup => ?_⟩
    · change update s.slug_of s.next_conn (some slug) c = _ at hs
      by_cases he : c = s.next_conn
      · exact Or.inr (he ▸ hnone)
      · rw [update_of_ne he] at hs
        exact Or.inl hs
    · have hlt := (hold (h.conns.opened key c ho).1).2
      obtain ⟨hup, hto⟩ := hr
      refine ⟨?_, hto.imp_left fun hto => ?_⟩
      · change update s.client_up s.next_conn true c = _ at hup
        rw [update_of_ne (Nat.ne_of_lt hlt)] at hup
        exact hup
      · exact (hout hto).resolve_right fun he => absurd he.2 (Nat.ne_of_lt hlt)
    · have hlt := (hold (h.conns.opened key c ho).1).2
      change update s.host_up s.next_conn true c = _ at hup
      rw [update_of_ne (Nat.ne_of_lt hlt)] at hup
      exact hup

/-- The queue to a machine is given up. -/
theorem Inv.let_go (h : Inv s) (slug : σ) : Inv { s with out := update s.out slug none } := by
  have hout : ∀ {slug' : σ} {c' : ℕ}, update s.out slug none slug' = some c' →
      s.out slug' = some c' := fun {slug' c'} ho => by
    by_cases he : slug' = slug
    · subst he
      rw [update_self] at ho
      exact nomatch ho
    · rw [update_of_ne he] at ho
      exact ho
  refine ⟨⟨h.conns.slug, h.conns.unused, fun slug' c ho => h.conns.out slug' c (hout ho),
    fun key c hc => ?_, fun key c ho => ?_, h.conns.ids, h.conns.host_tx, h.conns.host_open⟩, fun key => ?_⟩
  · obtain ⟨hs, hle, hopened⟩ := h.conns.tx key c hc
    exact ⟨hs, fun c' hc' => hle c' (hout hc'), hopened⟩
  · obtain ⟨hs, hle⟩ := h.conns.opened key c ho
    exact ⟨hs, fun c' hc' => hle c' (hout hc')⟩
  · exact (h.streams key).frame h.conns ⟨rfl, rfl, fun c hs => ⟨Or.inl hs, rfl, rfl, rfl⟩,
      fun _ hs => hs, fun c _ hr => ⟨hr.1, hr.2.imp_left hout⟩, fun _ _ hup => hup⟩

theorem update_false {up : ℕ → Bool} {c c' : ℕ} (h : update up c false c' = true) :
    up c' = true := by
  by_cases he : c' = c
  · subst he
    rw [update_self] at h
    exact nomatch h
  · rw [update_of_ne he] at h
    exact h

omit [DecidableEq σ] in
/-- The client's session on a connection ends. -/
theorem Inv.session_ends (h : Inv s) (c : ℕ) :
    Inv { s with client_up := update s.client_up c false } := by
  refine ⟨⟨h.conns.slug, h.conns.unused, h.conns.out, h.conns.tx, h.conns.opened, h.conns.ids,
    h.conns.host_tx, h.conns.host_open⟩, fun key => ?_⟩
  exact (h.streams key).frame h.conns ⟨rfl, rfl, fun c hs => ⟨Or.inl hs, rfl, rfl, rfl⟩,
    fun _ hs => hs, fun c _ hr => ⟨update_false hr.1, hr.2⟩, fun _ _ hup => hup⟩

omit [DecidableEq σ] in
/-- The host's thread of a connection ends. -/
theorem Inv.host_ends (h : Inv s) (c : ℕ) :
    Inv { s with host_up := update s.host_up c false } := by
  refine ⟨⟨h.conns.slug, h.conns.unused, h.conns.out, h.conns.tx, h.conns.opened, h.conns.ids,
    h.conns.host_tx, h.conns.host_open⟩, fun key => ?_⟩
  exact (h.streams key).frame h.conns ⟨rfl, rfl, fun c hs => ⟨Or.inl hs, rfl, rfl, rfl⟩,
    fun _ hs => hs, fun _ _ hr => hr, fun _ _ hup => update_false hup⟩

/-- The client drops a machine's streams. -/
theorem Inv.forget (h : Inv s) (slug : σ) (dropped : ℕ → Bool) :
    Inv { s.forget_slug slug with dropped } := by
  have hclient : ∀ key, (s.forget_slug slug).client key = s.client key ∨
      (s.forget_slug slug).client key = { s.client key with entry := none } := fun key => by
    change (if key.1 = slug then _ else _) = _ ∨ (if key.1 = slug then _ else _) = _
    split
    · exact Or.inr rfl
    · exact Or.inl rfl
  have hreader : ∀ key, ((s.forget_slug slug).client key).reader = (s.client key).reader := fun key => by
    rcases hclient key with hc | hc <;> rw [hc]
  refine ⟨⟨h.conns.slug, h.conns.unused, h.conns.out, fun key c hc => h.conns.tx key c (hreader key ▸ hc),
    h.conns.opened, fun key hle => ?_, h.conns.host_tx, h.conns.host_open⟩, fun key => ?_⟩
  · obtain ⟨hempty, hnone⟩ := h.conns.ids key hle
    refine ⟨?_, hnone⟩
    change (s.forget_slug slug).client key = {}
    rcases hclient key with hc | hc <;> rw [hc, hempty]
  · have hok := h.streams key
    have hreach : ∀ c, State.reaches { s.forget_slug slug with dropped } key c → s.reaches key c :=
      fun c hr => ⟨hr.1, hr.2.imp_right fun htx => hreader key ▸ htx⟩
    rcases hclient key with hc | hc
    · exact hok.frame h.conns ⟨hc, rfl, fun c hs => ⟨Or.inl hs, rfl, rfl, rfl⟩,
        fun _ hs => hs, fun c _ hr => hreach c hr, fun _ _ hup => hup⟩
    · have hc' : State.client { s.forget_slug slug with dropped } key = { s.client key with entry := none } := hc
      refine ⟨hc' ▸ hok.tidy.drop, fun hn => ?_, hok.elsewhere, fun c ho => ?_⟩
      · rw [hc']
        exact hok.unopened hn
      · rw [hc']
        exact (hok.link c ho).client_drop.weaken (hreach c) fun hup => hup

omit [DecidableEq σ] in
/-- The host drops a connection's streams. -/
theorem Inv.drop_host (h : Inv s) (c : ℕ) (listens : ℕ → Bool) : Inv
    { s with
      host := fun key => if key.1 = c then { s.host key with entry := none } else s.host key
      listens } := by
  have hhost : ∀ key, (if key.1 = c then { s.host key with entry := none } else s.host key) = s.host key ∨
      (if key.1 = c then { s.host key with entry := none } else s.host key) =
        { s.host key with entry := none } := fun key => by
    split
    · exact Or.inr rfl
    · exact Or.inl rfl
  refine ⟨⟨h.conns.slug, fun c' hs => ?_, h.conns.out, h.conns.tx, h.conns.opened, h.conns.ids,
    fun key c' hc' => ?_, fun key hne => ?_⟩, fun key => ?_⟩
  · obtain ⟨hup, hdown, hempty⟩ := h.conns.unused c' hs
    refine ⟨hup, hdown, fun id => ?_⟩
    change (if _ then _ else _) = _
    rcases hhost (c', id) with he | he <;> rw [he, hempty id]
  · refine h.conns.host_tx key c' ?_
    change (if _ then _ else _ : End).reader.tx = _ at hc'
    rcases hhost key with he | he <;> rwa [he] at hc'
  · change (if _ then _ else _ : End) ≠ _ at hne
    change (if _ then _ else _ : End).reader.unopened = _
    rcases hhost key with he | he
    · rw [he] at hne ⊢
      exact h.conns.host_open key hne
    · rw [he] at hne ⊢
      exact h.conns.host_open key fun hempty => hne (by rw [hempty])
  · have hok := h.streams key
    refine ⟨hok.tidy, hok.unopened, fun c' hs hne => ?_, fun c' ho => ?_⟩
    · obtain ⟨hempty, hrest⟩ := hok.elsewhere c' hs hne
      refine ⟨?_, hrest⟩
      change (if _ then _ else _) = _
      rcases hhost (c', key.2) with he | he <;> rw [he, hempty]
    · change Link _ (if _ then _ else _) _ _ _ _
      rcases hhost (c', key.2) with he | he <;> rw [he]
      · exact hok.link c' ho
      · exact (hok.link c' ho).host_drop

end

end Lpm.PortTunnel
