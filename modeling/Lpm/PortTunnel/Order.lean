/-
Every stream's bytes in order, in every run of the two machines.

A connection is used by any number of streams, and a stream's frames are those of its
connection's queue with its id (`of_id`). A stream is opened on one connection and is unknown
on all others (`StreamOk`); the client's threads only ever go on to newer connections
(`Conns`), so a stream that left its own connection does not come back to it.
-/
import Lpm.PortTunnel.Link

set_option autoImplicit false

open Transition

namespace Lpm.PortTunnel

open List Option Function

variable {σ : Type} [DecidableEq σ] {s s' : State σ}

/-- A stream's frames. -/
def of_id (id : ℕ) (frames : List Frame) : List Frame := frames.filter fun f => f.id = id

theorem of_id_append (id : ℕ) (a b : List Frame) : of_id id (a ++ b) = of_id id a ++ of_id id b :=
  filter_append ..

/-! ## Connections -/

/-- Connections are numbered in their order, and threads only go on to newer ones. -/
structure Conns (s : State σ) : Prop where
  slug : ∀ c slug, s.slug_of c = some slug → c < s.next_conn
  unused : ∀ c, s.slug_of c = none → s.up c = [] ∧ s.down c = [] ∧ ∀ id, s.host (c, id) = {}
  out : ∀ slug c, s.out slug = some c → s.slug_of c = some slug
  tx : ∀ key c, (s.client key).reader.tx = some c → s.slug_of c = some key.1 ∧
    (∀ c', s.out key.1 = some c' → c ≤ c') ∧ ∀ c', s.opened key = some c' → c' ≤ c
  opened : ∀ key c, s.opened key = some c → s.slug_of c = some key.1 ∧
    ∀ c', s.out key.1 = some c' → c ≤ c'
  ids : ∀ key, s.next_id ≤ key.2 → s.client key = {} ∧ s.opened key = none
  host_tx : ∀ key c, (s.host key).reader.tx = some c → c = key.1
  host_open : ∀ key, s.host key ≠ {} → (s.host key).reader.unopened = false

/-- The client may still send the stream's frames on a connection. -/
def State.reaches (s : State σ) (key : ClientKey σ) (c : ℕ) : Prop :=
  s.client_up c = true ∧ (s.out key.1 = some c ∨ (s.client key).reader.tx = some c)

/-- A stream as the two machines have it. -/
structure StreamOk (s : State σ) (key : ClientKey σ) : Prop where
  tidy : Tidy (s.client key)
  unopened : s.opened key = none → (s.client key).reader.unopened = true ∧
    (s.client key).got = [] ∧ (s.client key).half_closed = false ∧
    ∀ c, s.slug_of c = some key.1 → of_id key.2 (s.up c) = []
  elsewhere : ∀ c, s.slug_of c = some key.1 → s.opened key ≠ some c →
    s.host (c, key.2) = {} ∧ of_id key.2 (s.down c) = [] ∧ ¬ Waiting (of_id key.2 (s.up c))
  link : ∀ c, s.opened key = some c → Link (s.client key) (s.host (c, key.2))
    (of_id key.2 (s.up c)) (of_id key.2 (s.down c)) (s.reaches key c) (s.host_up c = true)

/-- What a step leaves of a stream. -/
structure Same (s s' : State σ) (key : ClientKey σ) : Prop where
  client : s'.client key = s.client key
  opened : s'.opened key = s.opened key
  conns : ∀ c, s'.slug_of c = some key.1 → (s.slug_of c = some key.1 ∨ s.slug_of c = none) ∧
    s'.host (c, key.2) = s.host (c, key.2) ∧ of_id key.2 (s'.up c) = of_id key.2 (s.up c) ∧
    of_id key.2 (s'.down c) = of_id key.2 (s.down c)
  slug : ∀ c, s.slug_of c = some key.1 → s'.slug_of c = some key.1
  reaches : ∀ c, s.opened key = some c → s'.reaches key c → s.reaches key c
  host_up : ∀ c, s.opened key = some c → s'.host_up c = true → s.host_up c = true

omit [DecidableEq σ] in
theorem StreamOk.frame {key : ClientKey σ} (hc : Conns s) (h : StreamOk s key)
    (hf : Same s s' key) : StreamOk s' key := by
  refine ⟨hf.client ▸ h.tidy, fun ho => ?_, fun c hslug ho => ?_, fun c ho => ?_⟩
  · rw [hf.opened] at ho
    obtain ⟨hu, hg, hh, hups⟩ := h.unopened ho
    rw [hf.client]
    refine ⟨hu, hg, hh, fun c hslug => ?_⟩
    obtain ⟨hold, -, hup, -⟩ := hf.conns c hslug
    rw [hup]
    rcases hold with hold | hnew
    · exact hups c hold
    · rw [(hc.unused c hnew).1]
      rfl
  · rw [hf.opened] at ho
    obtain ⟨hold, hhost, hup, hdown⟩ := hf.conns c hslug
    rw [hhost, hup, hdown]
    rcases hold with hold | hnew
    · exact h.elsewhere c hold ho
    · obtain ⟨hup', hdown', hhost'⟩ := hc.unused c hnew
      rw [hhost', hup', hdown']
      exact ⟨rfl, rfl, not_waiting_nil⟩
  · rw [hf.opened] at ho
    obtain ⟨-, hhost, hup, hdown⟩ := hf.conns c (hf.slug c (hc.opened key c ho).1)
    rw [hf.client, hhost, hup, hdown]
    exact (h.link c ho).weaken (hf.reaches c ho) (hf.host_up c ho)

structure Inv (s : State σ) : Prop where
  conns : Conns s
  streams : ∀ key, StreamOk s key

/-! ### Steps on other streams -/

section
variable {key key' : ClientKey σ} {c c' id : ℕ}

omit [DecidableEq σ] in
/-- Another stream's place on a host is another place. -/
theorem other_place {slug : σ} (hslug : s.slug_of c = some slug) (hne : key ≠ (slug, id))
    (hkey : s.slug_of c' = some key.1) : (c', key.2) ≠ (c, id) := by
  intro he
  obtain ⟨rfl, hid⟩ := Prod.mk.inj he
  have hs : slug = key.1 := some.inj (hslug.symm.trans hkey)
  exact hne (Prod.ext hs.symm hid)

variable {frames : List Frame}

variable (h : ∀ f ∈ frames, f.id = id)
include h

theorem of_id_none {id' : ℕ} (hne : id' ≠ id) :
    of_id id' frames = [] := by
  refine filter_eq_nil_iff.mpr fun f hf he => hne ?_
  rw [← h f hf]
  exact (of_decide_eq_true he).symm

theorem of_id_all : of_id id frames = frames :=
  filter_eq_self.mpr fun f hf => decide_eq_true (h f hf)

/-- What is put into a connection's queue is seen by its own stream only. -/
theorem of_id_send {lane : ℕ → List Frame}
    {id' : ℕ} (hne : (c', id') ≠ (c, id)) :
    of_id id' (update lane c (lane c ++ frames) c') = of_id id' (lane c') := by
  by_cases hc : c' = c
  · subst hc
    have hid : id' ≠ id := fun he => hne (by rw [he])
    rw [update_self, of_id_append, of_id_none h hid, append_nil]
  · rw [update_of_ne hc]

omit h

theorem of_id_head {lane : ℕ → List Frame} {f : Frame}
    (h : lane c = f :: frames) : of_id f.id (lane c) = f :: of_id f.id frames := by
  rw [h, of_id, filter_cons_of_pos (by simp)]
  rfl

omit [DecidableEq σ] in
/-- A stream that is on a host is opened there. -/
theorem Inv.opened_of_host (h : Inv s) (hhost : s.host (c, id) ≠ {}) :
    ∃ slug, s.slug_of c = some slug ∧ s.opened (slug, id) = some c := by
  cases hslug : s.slug_of c with
  | none => exact absurd ((h.conns.unused c hslug).2.2 id) hhost
  | some slug =>
    refine ⟨slug, rfl, ?_⟩
    by_contra ho
    exact hhost ((h.streams (slug, id)).elsewhere c hslug ho).1

omit [DecidableEq σ] in
theorem reaches_congr (hr : s'.reaches key c) (hup : s'.client_up = s.client_up)
    (hout : s'.out = s.out) (hclient : s'.client key = s.client key) : s.reaches key c := by
  rw [State.reaches, hup, hout, hclient] at hr
  exact hr

/-- Only a stream of the client changes. -/
theorem same_client {e : End} (hne : key' ≠ key) : Same s (s.set_client key e) key' where
  client := update_of_ne hne _ _
  opened := rfl
  conns _ hslug := ⟨Or.inl hslug, rfl, rfl, rfl⟩
  slug _ h := h
  reaches _ _ hr := by
    have hsame : (s.set_client key e).client key' = s.client key' := update_of_ne hne _ _
    exact reaches_congr hr rfl rfl hsame
  host_up _ _ h := h

end

/-! ### The client's threads -/

section
variable {key : ClientKey σ} {e : End}

/-- The stream of a key changes, and all others are as they were. -/
theorem streams_of (h : Inv s) (k : ClientKey σ) (hsame : ∀ key', key' ≠ k → Same s s' key')
    (hkey : StreamOk s' k) : ∀ key', StreamOk s' key' := by
  intro key'
  by_cases he : key' = k
  · exact he ▸ hkey
  · exact (h.streams key').frame h.conns (hsame key' he)

/-- A connection to a local port comes in. -/
theorem Inv.accept (h : Inv s) (slug : σ) (port : ℕ) : Inv
    { s.set_client (slug, s.next_id) ((s.client (slug, s.next_id)).register (.opening port none))
      with next_id := s.next_id + 1 } := by
  obtain ⟨hclient, hopened⟩ := h.conns.ids (slug, s.next_id) (Nat.le_refl _)
  have hok := h.streams (slug, s.next_id)
  rw [hclient]
  refine ⟨⟨h.conns.slug, h.conns.unused, h.conns.out, fun key c htx => ?_, h.conns.opened,
    fun key hkey => ?_, h.conns.host_tx, h.conns.host_open⟩, streams_of h (slug, s.next_id) (fun key' hne => ?_) ?_⟩
  · change (update s.client _ _ key).reader.tx = _ at htx
    by_cases he : key = (slug, s.next_id)
    · subst he
      rw [update_self] at htx
      exact nomatch htx
    · rw [update_of_ne he] at htx
      exact h.conns.tx key c htx
  · have hle : s.next_id ≤ key.2 := Nat.le_of_succ_le hkey
    have hne : key ≠ (slug, s.next_id) := fun he => by
      rw [he] at hkey
      exact absurd hkey (Nat.not_succ_le_self _)
    refine ⟨?_, (h.conns.ids key hle).2⟩
    exact (update_of_ne hne _ _).trans (h.conns.ids key hle).1
  · exact { same_client hne with }
  · have hnew : update s.client (slug, s.next_id) (End.register {} (.opening port none))
        (slug, s.next_id) = End.register {} (.opening port none) := update_self ..
    refine ⟨?_, fun _ => ?_, hok.elsewhere, fun c ho => (nomatch hopened.symm.trans ho)⟩
    · change Tidy (update s.client _ _ _)
      rw [hnew]
      exact Tidy.register rfl
    · change (update s.client _ _ _).reader.unopened = true ∧
        (update s.client _ _ _).got = [] ∧ (update s.client _ _ _).half_closed = false ∧ _
      rw [hnew]
      exact ⟨rfl, rfl, rfl, (hok.unopened hopened).2.2.2⟩

/-- The client's ends keep to newer connections. -/
theorem Conns.set_client (h : Conns s) (hids : key.2 < s.next_id)
    (htx : ∀ c, e.reader.tx = some c → (s.client key).reader.tx = some c ∨ s.out key.1 = some c) :
    Conns (s.set_client key e) := by
  refine ⟨h.slug, h.unused, h.out, fun key' c hc => ?_, h.opened, fun key' hkey => ?_, h.host_tx, h.host_open⟩
  · change (update s.client _ _ key').reader.tx = _ at hc
    by_cases he : key' = key
    · subst he
      rw [update_self] at hc
      rcases htx c hc with hold | hout
      · exact h.tx key' c hold
      · refine ⟨h.out _ _ hout, fun c' hc' => ?_, fun c' hc' => (h.opened _ _ hc').2 c hout⟩
        exact Nat.le_of_eq (some.inj (hout.symm.trans hc'))
    · rw [update_of_ne he] at hc
      exact h.tx key' c hc
  · have hne : key' ≠ key := fun he => by
      rw [he] at hkey
      exact absurd hids (Nat.not_lt.mpr hkey)
    exact ⟨(update_of_ne hne _ _).trans (h.ids key' hkey).1, (h.ids key' hkey).2⟩

omit [DecidableEq σ] in
/-- A stream that is there has its id. -/
theorem Conns.id_lt (h : Conns s) (hne : s.client key ≠ {}) : key.2 < s.next_id := by
  by_contra hle
  exact hne (h.ids key (Nat.not_lt.mp hle)).1

theorem got_of_near {e' : End} (h : Near e e') (hgot : e.got = []) : e'.got = [] :=
  prefix_nil.mp (hgot ▸ h.got)

/-- A thread of the client takes a step. -/
theorem Inv.client_step (h : Inv s) {ev : EndEvent}
    (hstep : (s.client key).step (s.out key.1) ev = some e) : Inv (s.set_client key e) := by
  have hok := h.streams key
  have hfar := step_far hstep
  have hne : s.client key ≠ {} := fun he => by
    rw [he, step_untouched] at hstep
    exact nomatch hstep
  have hnew : (s.set_client key e).client key = e := update_self ..
  refine ⟨h.conns.set_client (h.conns.id_lt hne) fun c hc => hfar.tx hc,
    streams_of h key (fun key' hne => same_client hne) ⟨?_, fun ho => ?_, hok.elsewhere, fun c ho => ?_⟩⟩
  · rw [hnew]
    exact hok.tidy.step hstep
  · obtain ⟨hu, hg, hh, hups⟩ := hok.unopened ho
    have hnear := step_near hok.tidy hstep
    rw [hnew]
    exact ⟨(step_unopened hstep).trans hu, got_of_near hnear hg, hnear.half_closed.trans hh, hups⟩
  · rw [hnew]
    refine (hok.link c ho).client_step hok.tidy hstep (fun hr => ⟨hr.1, ?_⟩) fun hout htx hr => ?_
    · rcases hr.2 with hr | hr
      · exact Or.inl hr
      · rw [hnew] at hr
        exact (hfar.tx hr).symm
    · rcases hr.2 with hr | hr
      · exact nomatch hout.symm.trans hr
      · rw [hnew] at hr
        exact nomatch htx.symm.trans hr

/-- The state behind a frame that a thread of the client sent. -/
def State.sent (s : State σ) (key : ClientKey σ) (e : End) (c : ℕ) (frames : List Frame)
    (opened : ClientKey σ → Option ℕ) : State σ :=
  { (s.set_client key e).send_up c frames with opened }

variable {frames : List Frame} {opened : ClientKey σ → Option ℕ}

/-- Sending changes nothing for other streams. -/
theorem same_sent {key' : ClientKey σ} (hne : key' ≠ key) {c : ℕ} (hslug : s.slug_of c = some key.1)
    (hframes : ∀ f ∈ frames, f.id = key.2)
    (hopened : opened key' = s.opened key') :
    Same s (s.sent key e c frames opened) key' where
  client := update_of_ne hne _ _
  opened := hopened
  conns _ hs := ⟨Or.inl hs, rfl, of_id_send hframes (other_place hslug hne hs), rfl⟩
  slug _ h := h
  reaches _ _ hr := by
    have hsame : (s.sent key e c frames opened).client key' = s.client key' :=
      update_of_ne hne _ _
    exact reaches_congr hr rfl rfl hsame
  host_up _ _ h := h

theorem Conns.sent (h : Conns s) {c : ℕ} (hslug : s.slug_of c = some key.1)
    (hids : key.2 < s.next_id) (htx : e.reader.tx = none)
    (hopened : opened = s.opened ∨ opened = update s.opened key (some c) ∧
      ∀ c', s.out key.1 = some c' → c ≤ c') :
    Conns (s.sent key e c frames opened) := by
  have hset : Conns (s.set_client key e) := h.set_client hids fun c hc => (nomatch htx.symm.trans hc)
  have hopen : ∀ key' c', opened key' = some c' → s.opened key' = some c' ∨ key' = key ∧ c' = c := by
    intro key' c' ho
    rcases hopened with rfl | ⟨rfl, -⟩
    · exact Or.inl ho
    · by_cases he : key' = key
      · subst he
        rw [update_self] at ho
        exact Or.inr ⟨rfl, (some.inj ho).symm⟩
      · rw [update_of_ne he] at ho
        exact Or.inl ho
  refine ⟨h.slug, fun c' hc' => ?_, h.out, fun key' c' hc' => ?_, fun key' c' ho => ?_,
    fun key' hkey => ?_, h.host_tx, h.host_open⟩
  -- the connection that carried the frames is in use
  · have hne : c' ≠ c := fun he => by
      rw [he] at hc'
      exact nomatch hc'.symm.trans hslug
    refine ⟨?_, (h.unused c' hc').2⟩
    exact (update_of_ne hne _ _).trans (h.unused c' hc').1
  · obtain ⟨hs, ho, hop⟩ := hset.tx key' c' hc'
    refine ⟨hs, ho, fun c1 h1 => ?_⟩
    rcases hopen key' c1 h1 with hold | ⟨rfl, rfl⟩
    · exact hop c1 hold
    · change (update s.client key' e key').reader.tx = _ at hc'
      rw [update_self] at hc'
      exact nomatch htx.symm.trans hc'
  · rcases hopen key' c' ho with hold | ⟨rfl, rfl⟩
    · exact h.opened key' c' hold
    · refine ⟨hslug, fun c1 h1 => ?_⟩
      rcases hopened with rfl | ⟨-, hle⟩
      · exact (h.opened key' c' ho).2 c1 h1
      · exact hle c1 h1
  · obtain ⟨hclient, hnone⟩ := hset.ids key' hkey
    refine ⟨hclient, ?_⟩
    cases ho : opened key' with
    | none => exact ho
    | some c' =>
      rcases hopen key' c' ho with hold | ⟨rfl, -⟩
      · exact nomatch hnone.symm.trans hold
      · exact absurd hids (Nat.not_lt.mpr hkey)

/-- The queue of a connection, as one of its streams sees it behind a send. -/
theorem sent_up {c c' : ℕ} (hframes : ∀ f ∈ frames, f.id = key.2) :
    of_id key.2 ((s.sent key e c frames opened).up c') =
      of_id key.2 (s.up c') ++ if c' = c then frames else [] := by
  by_cases hc : c' = c
  · subst hc
    rw [if_pos rfl, ← of_id_all hframes, ← of_id_append, of_id_all hframes]
    exact congrArg _ (update_self ..)
  · rw [if_neg hc, append_nil]
    exact congrArg _ (update_of_ne hc _ _)

/-- A stream that is open sends on some connection. -/
theorem StreamOk.sent (hok : StreamOk s key) {c c0 : ℕ} (htidy : Tidy e)
    (hframes : ∀ f ∈ frames, f.id = key.2 ∧ f.opens = false) (ho : s.opened key = some c0)
    (hlink : Link e (s.host (c0, key.2)) (of_id key.2 (s.up c0) ++ if c0 = c then frames else [])
      (of_id key.2 (s.down c0)) ((s.sent key e c frames s.opened).reaches key c0)
      (s.host_up c0 = true)) : StreamOk (s.sent key e c frames s.opened) key := by
  have hids : ∀ f ∈ frames, f.id = key.2 := fun f hf => (hframes f hf).1
  have hnew : (s.sent key e c frames s.opened).client key = e := update_self ..
  refine ⟨by rw [hnew]; exact htidy, fun hn => (nomatch ho.symm.trans hn), fun c' hs hne => ?_, fun c' hc' => ?_⟩
  · obtain ⟨hhost, hdown, hup⟩ := hok.elsewhere c' hs hne
    refine ⟨hhost, hdown, ?_⟩
    rw [sent_up hids]
    rintro ⟨f, hf, hopens⟩
    rcases mem_append.mp hf with hold | hnew
    · exact hup ⟨f, hold, hopens⟩
    · split at hnew
      · exact Bool.noConfusion ((hframes f hnew).2.symm.trans hopens)
      · exact not_mem_nil hnew
  · obtain rfl := some.inj (ho.symm.trans hc')
    rw [hnew, sent_up hids]
    exact hlink

/-- Where a stream's thread sends elsewhere, the client sends no more on the stream's own
connection. -/
theorem Inv.left (h : Inv s) {c c0 : ℕ} (htx : (s.client key).reader.tx = some c)
    (htx' : e.reader.tx = none) (ho : s.opened key = some c0)
    (hr : (s.sent key e c frames s.opened).reaches key c0) : c0 = c ∧ s.client_up c0 = true := by
  obtain ⟨hup, hout⟩ := hr
  have hnew : (s.sent key e c frames s.opened).client key = e := update_self ..
  rw [hnew, htx'] at hout
  obtain ⟨-, hnewer, holder⟩ := h.conns.tx key c htx
  have hle := holder c0 ho
  have hge := hnewer c0 (hout.resolve_right fun h' => (nomatch h'))
  exact ⟨Nat.le_antisymm hle hge, hup⟩

/-- The stream is opened on a connection. -/
theorem StreamOk.opens (hok : StreamOk s key) {c : ℕ} (hslug : s.slug_of c = some key.1) (port : ℕ)
    (hnone : s.opened key = none) (htidy : Tidy { s.client key with reader := .piping }) :
    StreamOk (s.sent key { s.client key with reader := .piping } c [.tcpOpen key.2 port]
      (update s.opened key (some c))) key := by
  obtain ⟨-, hgot, hhalf, hups⟩ := hok.unopened hnone
  have hids : ∀ f ∈ [Frame.tcpOpen key.2 port], f.id = key.2 := fun f hf => by
    rw [mem_singleton.mp hf]
    rfl
  have hnew : (s.sent key { s.client key with reader := .piping } c [.tcpOpen key.2 port]
      (update s.opened key (some c))).client key = { s.client key with reader := .piping } :=
    update_self ..
  have hopened : (update s.opened key (some c)) key = some c := update_self ..
  have hdifferent : ∀ c', s.opened key ≠ some c' := fun c' h' => (nomatch hnone.symm.trans h')
  refine ⟨by rw [hnew]; exact htidy, fun hn => (nomatch hopened.symm.trans hn),
    fun c' hs hne => ?_, fun c' hc' => ?_⟩
  · obtain ⟨hhost, hdown, hup⟩ := hok.elsewhere c' hs (hdifferent c')
    have hne' : ¬ c' = c := fun he => hne (he ▸ hopened)
    refine ⟨hhost, hdown, ?_⟩
    rw [sent_up hids, if_neg hne', append_nil]
    exact hup
  · obtain rfl := some.inj (hopened.symm.trans hc')
    obtain ⟨hhost, hdown, -⟩ := hok.elsewhere c hslug (hdifferent c)
    rw [hnew, sent_up hids, if_pos rfl, hups c hslug, nil_append]
    change Link _ (s.host (c, key.2)) _ (of_id key.2 (s.down c)) _ _
    rw [hhost, hdown]
    exact Link.start (htidy.early rfl).1 hgot hhalf rfl key.2 port

theorem Reader.unopened_of_opening {r : Reader} (h : r.is_opening = true) : r.unopened = true := by
  cases r <;> simp_all [Reader.is_opening, Reader.unopened]

/-- The stream's first frame could not be sent. -/
theorem StreamOk.refused (hok : StreamOk s key) (htidy : Tidy ((s.client key).abandon .refused))
    (c : ℕ) (hnone : s.opened key = none) :
    StreamOk (s.sent key ((s.client key).abandon .refused) c [] s.opened) key := by
  obtain ⟨-, hgot, hhalf, hups⟩ := hok.unopened hnone
  have hids : ∀ f ∈ ([] : List Frame), f.id = key.2 := fun f hf => absurd hf not_mem_nil
  have hnew : (s.sent key ((s.client key).abandon .refused) c [] s.opened).client key =
      (s.client key).abandon .refused := update_self ..
  have hsame : ∀ c', of_id key.2 ((s.sent key ((s.client key).abandon .refused) c [] s.opened).up c') =
      of_id key.2 (s.up c') := fun c' => by
    rw [sent_up hids, ite_self, append_nil]
  refine ⟨by rw [hnew]; exact htidy, fun _ => ?_, fun c' hs hne => ?_, fun c' hc' => (nomatch hnone.symm.trans hc')⟩
  · rw [hnew]
    refine ⟨rfl, got_of_near (Near.abandon _ _) hgot, hhalf, fun c' hs => ?_⟩
    rw [hsame]
    exact hups c' hs
  · rw [hsame]
    exact hok.elsewhere c' hs hne

/-- A thread of the client sends. -/
theorem Inv.client_send (h : Inv s) (hstep : s.client_send key = some s') : Inv s' := by
  have hok := h.streams key
  obtain ⟨⟨c, frames, e⟩, hsend, hrest⟩ := bind_eq_some_iff.mp hstep
  have htidy : Tidy e := hok.tidy.send hsend
  have hsent := send_sent hsend
  have htx := hsent.tx
  have htx' := hsent.tx_none
  have hids := hsent.ids
  obtain ⟨hslug, hnewer, holder⟩ := h.conns.tx key c htx
  have hlt : key.2 < s.next_id := h.conns.id_lt fun he => by
    rw [he] at htx
    exact nomatch htx
  rw [htx] at hsent
  obtain rfl : s.sent key e c frames _ = s' := some.inj hrest
  clear hrest hsend hstep
  rw [htx]
  change Sent _ _ _ (s.client_up c) _ _ at hsent
  change Inv (s.sent key e c frames (if ((s.client key).reader.is_opening && s.client_up c) = true
    then update s.opened key (some c) else s.opened))
  -- a stream that is not open has nothing but its first frame to send
  have hunopened : (s.client key).reader.is_opening = true → s.opened key = none := fun hr => by
    cases ho : s.opened key with
    | none => rfl
    | some c0 =>
      exact Bool.noConfusion ((hok.link c0 ho).started.symm.trans (Reader.unopened_of_opening hr))
  have hopen : (s.client key).reader.unopened = false → ∃ c0, s.opened key = some c0 := fun hr => by
    cases ho : s.opened key with
    | some c0 => exact ⟨c0, rfl⟩
    | none => exact Bool.noConfusion (hr.symm.trans (hok.unopened ho).1)
  have hothers : ∀ {opened : ClientKey σ → Option ℕ}, (∀ key', key' ≠ key → opened key' = s.opened key') →
      ∀ key', key' ≠ key → Same s (s.sent key e c frames opened) key' := fun ho key' hne =>
    same_sent hne hslug hids (ho key' hne)
  have hconns : Conns (s.sent key e c frames s.opened) := h.conns.sent hslug hlt htx' (Or.inl rfl)
  have hleft : ∀ c0, s.opened key = some c0 → (s.sent key e c frames s.opened).reaches key c0 →
      c0 = c ∧ s.client_up c0 = true := fun c0 => h.left htx htx'
  cases hsent with
  | opens port hr hup =>
    rw [hr, hup]
    refine ⟨h.conns.sent hslug hlt htx' (Or.inr ⟨rfl, hnewer⟩), streams_of h key
      (hothers fun key' hne => update_of_ne hne _ _) ?_⟩
    exact hok.opens hslug port (hunopened (by rw [hr]; rfl)) htidy
  | refused port hr hup =>
    rw [hr, hup]
    exact ⟨hconns, streams_of h key (hothers fun _ _ => rfl)
      (hok.refused htidy c (hunopened (by rw [hr]; rfl)))⟩
  | data bytes hr hup =>
    rw [hr]
    refine ⟨hconns, streams_of h key (hothers fun _ _ => rfl) ?_⟩
    obtain ⟨c0, ho⟩ := hopen (by rw [hr]; rfl)
    have hlink := hok.link c0 ho
    refine hok.sent htidy (fun f hf => ⟨hids f hf, ?_⟩) ho ?_
    · rw [mem_singleton.mp hf]
      rfl
    · by_cases hc : c0 = c
      · subst hc
        rw [if_pos rfl]
        refine (hlink.client_data ⟨hup, Or.inr htx⟩ hr key.2).weaken (fun _ => ⟨hup, Or.inr htx⟩) id
      · rw [if_neg hc, append_nil]
        have hnot := fun hreach => hc (hleft c0 ho hreach).1
        exact hlink.client_unsent (Or.inr ⟨by rw [hr]; rfl, hnot⟩) (fun hd => by rw [hr] at hd; exact nomatch hd)
          rfl rfl (fun hreach => absurd hreach hnot)
  | lost bytes hr hup =>
    rw [hr]
    refine ⟨hconns, streams_of h key (hothers fun _ _ => rfl) ?_⟩
    obtain ⟨c0, ho⟩ := hopen (by rw [hr]; rfl)
    have hnot : ¬ (s.sent key _ c [] s.opened).reaches key c0 := fun hreach => by
      obtain ⟨rfl, hup'⟩ := hleft c0 ho hreach
      exact Bool.noConfusion (hup.symm.trans hup')
    refine hok.sent htidy (fun f hf => absurd hf not_mem_nil) ho ?_
    rw [ite_self, append_nil]
    exact (hok.link c0 ho).client_unsent (Or.inr ⟨by rw [hr]; rfl, hnot⟩)
      (fun hd => by rw [hr] at hd; exact nomatch hd) rfl rfl (fun hreach => absurd hreach hnot)
  | closes next hr =>
    have hplace : (s.client key).reader.is_opening = false ∧ (s.client key).reader.unopened = false ∧
        (s.client key).reader.pending = [] ∧ next.pending = [] ∧ next.done = true ∧
        next.unopened = false ∧ next.tx = none := by
      obtain ⟨hr, rfl⟩ | ⟨hr, rfl⟩ := hr <;> rw [hr] <;> exact ⟨rfl, rfl, rfl, rfl, rfl, rfl, rfl⟩
    obtain ⟨hopening, hunop, hpending, hempty, hdone, hunop', hnotx⟩ := hplace
    rw [hopening]
    refine ⟨hconns, streams_of h key (hothers fun _ _ => rfl) ?_⟩
    obtain ⟨c0, ho⟩ := hopen hunop
    have hlink := hok.link c0 ho
    refine hok.sent htidy (fun f hf => ⟨hids f hf, ?_⟩) ho ?_
    · split at hf
      · rw [mem_singleton.mp hf]
        rfl
      · exact absurd hf not_mem_nil
    · by_cases hc : c0 = c ∧ s.client_up c = true
      · obtain ⟨rfl, hup⟩ := hc
        rw [if_pos rfl, hup]
        exact (hlink.client_close ⟨hup, Or.inr htx⟩ hpending hempty hdone hunop' key.2).weaken
          (fun _ => ⟨hup, Or.inr htx⟩) id
      · have hnone : (if c0 = c then (if s.client_up c = true then [Frame.tcpClose key.2] else []) else [])
            = [] := by
          split
          next he =>
            rw [if_neg fun hup => hc ⟨he, hup⟩]
          next => rfl
        have hnot := fun hreach => hc ⟨(hleft c0 ho hreach).1, (hleft c0 ho hreach).1 ▸ (hleft c0 ho hreach).2⟩
        rw [hnone, append_nil]
        exact hlink.client_unsent (Or.inl (hempty.trans hpending.symm)) (fun _ => hdone) hnotx hunop'
          (fun hreach => absurd hreach hnot)

end

end Lpm.PortTunnel
