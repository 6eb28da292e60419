/-
One end of a stream, and the bytes that go from one end to the other.

Bytes that an end read are on their way in frames, in the other end's inbox or written, in
this order (`Flow`). What is lost is lost at the back: an end that fails to send a chunk on
the stream's connection never sends on it again, and an inbox that gives up a chunk takes none
after it. So what was written is at any moment the start of what was read.
-/
import Lpm.PortTunnel.Streams

set_option autoImplicit false

namespace Lpm.PortTunnel

open List Option

/-! ## One end -/

/-- No socket is being read yet. -/
def Reader.early : Reader → Bool
  | absent | opening _ _ | refused | dialing | failing _ | failed | piping => true
  | _ => false

/-- The socket is not there yet, and the inbox waits for it. -/
def Reader.waits : Reader → Bool
  | opening _ _ | dialing | piping => true
  | _ => false

/-- There was no socket to be had. -/
def Reader.hopeless : Reader → Bool
  | refused | failing _ | failed => true
  | _ => false

/-- The far end is told that nothing more comes, or cannot be told. -/
def Reader.done : Reader → Bool
  | ending | «over» | failed => true
  | _ => false

theorem Reader.early_of_waits {r : Reader} (h : r.waits = true) : r.early = true := by
  cases r <;> simp_all [Reader.waits, Reader.early]

theorem Reader.not_waits_of_hopeless {r : Reader} (h : r.hopeless = true) : r.waits = false := by
  cases r <;> simp_all [Reader.hopeless, Reader.waits]

/-- An entry and its two threads agree with each other. -/
structure Tidy (e : End) : Prop where
  untouched : e.reader = .absent → e = {}
  inbox : ∀ st, e.entry = some st → st.inbox = !e.half_closed
  read_done : ∀ st, e.entry = some st → (st.read_done = true ↔ e.reader = .over)
  kept : ∀ st, e.entry = some st → st.inbox = true ∨ st.read_done = false
  hopeless : e.reader.hopeless = true → e.entry = none
  emptied : e.writer.receives = false → e.inbox = []
  early : e.reader.early = true → e.read = [] ∧ e.written = []
  waits : e.reader.waits = true → e.writer = .held
  works : e.writer = .writing → e.reader.early = false
  inboxed : ∀ st, e.entry = some st → st.inbox = true → e.writer.receives = true ∨ e.writer = .broken

namespace End

/-- What was written and what the inbox holds. -/
def got (e : End) : List UInt8 := e.written ++ e.inbox.flatten

/-- What arrives goes into the inbox. -/
def takes (e : End) : Prop := ∃ st, e.entry = some st ∧ st.inbox = true ∧ e.writer.receives = true

end End

/-- What a step of a thread comes to. -/
inductive Stepped (e : End) (out : Option ℕ) : EndEvent → End → Prop
  | run_pipe (reader : e.reader = .piping) : Stepped e out .run_pipe { e with reader := .reading, writer := .writing }
  | clone_fails (reader : e.reader = .piping) :
    Stepped e out .clone_fails { e with reader := .closing none, writer := .broken, inbox := [] }
  | read (bytes : List UInt8) (reader : e.reader = .reading) :
    Stepped e out (.read bytes) { e with reader := .sending bytes none, read := e.read ++ bytes }
  | read_ends (reader : e.reader = .reading) : Stepped e out .read_ends { e with reader := .closing none }
  | take {e' : End} (take : e.take out = some e') : Stepped e out .take e'
  | end_reading (reader : e.reader = .ending) : Stepped e out .end_reading { e.end_reading with reader := .over }
  | write (bytes : List UInt8) (inbox : List (List UInt8)) (writer : e.writer = .writing) (first : e.inbox = bytes :: inbox) :
    Stepped e out .write { e with written := e.written ++ bytes, inbox }
  | write_fails (n : ℕ) (bytes : List UInt8) (inbox : List (List UInt8)) (writer : e.writer = .writing)
    (first : e.inbox = bytes :: inbox) :
    Stepped e out (.write_fails n) { e with written := e.written ++ bytes.take n, inbox := [], writer := .broken }
  | shut (writer : e.writer = .writing ∧ e.inbox = [] ∧ e.disconnected = true) :
    Stepped e out .shut { e with writer := .shut }

theorem stepped {e e' : End} {out : Option ℕ} {ev : EndEvent} (h : e.step out ev = some e') : Stepped e out ev e' := by
  cases ev with
  | take => exact .take h
  | write | write_fails _ =>
    rw [End.step] at h
    split at h
    next bytes inbox hw hinbox =>
      cases h
      constructor
      · exact hw
      · exact hinbox
    next => exact nomatch h
  | _ =>
    obtain ⟨hc, hsome⟩ := ite_none_right_eq_some.mp h
    cases hsome
    constructor
    exact hc

/-- What sending a frame on connection `c` comes to. -/
inductive Sent (e : End) (id c : ℕ) (alive : Bool) : List Frame → End → Prop
  | opens (port : ℕ) (reader : e.reader = .opening port (some c)) (up : alive = true) :
    Sent e id c alive [.tcpOpen id port] { e with reader := .piping }
  | refused (port : ℕ) (reader : e.reader = .opening port (some c)) (down : alive = false) :
    Sent e id c alive [] (e.abandon .refused)
  | data (bytes : List UInt8) (reader : e.reader = .sending bytes (some c)) (up : alive = true) :
    Sent e id c alive [.tcpData id bytes] { e with reader := .reading }
  | lost (bytes : List UInt8) (reader : e.reader = .sending bytes (some c)) (down : alive = false) :
    Sent e id c alive [] { e with reader := .closing none }
  | closes (next : Reader)
    (reader : e.reader = .closing (some c) ∧ next = .ending ∨
      e.reader = .failing (some c) ∧ next = .failed) :
    Sent e id c alive (if alive then [.tcpClose id] else []) { e with reader := next }

theorem send_sent {e e' : End} {id c : ℕ} {alive : Bool} {frames : List Frame}
    (h : e.send id alive = some (c, frames, e')) : Sent e id c alive frames e' := by
  unfold End.send at h
  split at h
  next port c' hr =>
    cases alive with
    | true =>
      cases h
      exact .opens port hr rfl
    | false =>
      cases h
      exact .refused port hr rfl
  next bytes c' hr =>
    cases alive with
    | true =>
      cases h
      exact .data bytes hr rfl
    | false =>
      cases h
      exact .lost bytes hr rfl
  next c' hr =>
    cases h
    exact .closes .ending (Or.inl ⟨hr, rfl⟩)
  next c' hr =>
    cases h
    exact .closes .failed (Or.inr ⟨hr, rfl⟩)
  next => exact nomatch h

section
variable {e e' : End}

theorem Tidy.start : Tidy {} := by
  constructor <;> simp [Reader.hopeless, Reader.waits]

theorem Tidy.register {reader : Reader} (hreader : reader.waits = true) :
    Tidy (End.register {} reader) := by
  constructor <;> cases reader <;> simp_all [End.register, Reader.waits, Reader.hopeless, Writer.receives]

variable (h : Tidy e)
include h

theorem Tidy.deliver (bytes : List UInt8) : Tidy (e.deliver bytes) := by
  unfold End.deliver
  split
  next st hst =>
    split
    next htakes =>
      rw [Bool.and_eq_true] at htakes
      refine ⟨fun hr => ?_, h.inbox, h.read_done, h.kept, h.hopeless, fun hw => ?_, h.early, h.waits,
        h.works, h.inboxed⟩
      · rw [h.untouched hr] at hst
        exact nomatch hst
      · exact absurd (htakes.2.symm.trans hw) Bool.noConfusion
    next => exact h
  next => exact h

theorem Tidy.end_writing : Tidy e.end_writing := by
  unfold End.end_writing
  -- only an end that has an entry is told
  split
  next st hst =>
    have hreader : e.reader ≠ .absent := fun hr => by
      rw [h.untouched hr] at hst
      exact nomatch hst
    have hinbox := h.inbox st hst
    refine ⟨fun hr => absurd hr hreader, fun st' hst' => ?_, fun st' hst' => ?_, fun st' hst' => ?_,
      fun hr => ?_, h.emptied, h.early, h.waits, h.works, fun st' hst' hin => ?_⟩
    all_goals dsimp only at *
    · split at hst'
      · exact nomatch hst'
      · cases hst'
        rw [hinbox]
        cases e.half_closed <;> rfl
    · split at hst'
      · exact nomatch hst'
      · cases hst'
        exact h.read_done st hst
    · split at hst'
      · exact nomatch hst'
      next hnot =>
        cases hst'
        exact Or.inr (Bool.eq_false_iff.mpr hnot)
    · rw [h.hopeless hr] at hst
      exact nomatch hst
    · split at hst'
      · exact nomatch hst'
      · cases hst'
        exact nomatch hin
  next => exact h

theorem Tidy.drop : Tidy { e with entry := none } := by
  refine ⟨fun hr => ?_, fun _ h' => (nomatch h'), fun _ h' => (nomatch h'), fun _ h' => (nomatch h'),
    fun _ => rfl, h.emptied, h.early, h.waits, h.works, fun _ h' => (nomatch h')⟩
  rw [h.untouched hr]

theorem Tidy.abandon (hearly : e.reader.early = true) {reader : Reader}
    (hreader : reader.hopeless = true) : Tidy (e.abandon reader) := by
  obtain ⟨hread, hwritten⟩ := h.early hearly
  refine ⟨fun hr => ?_, fun _ h' => (nomatch h'), fun _ h' => (nomatch h'), fun _ h' => (nomatch h'),
    fun _ => rfl, fun _ => rfl, fun _ => ⟨hread, hwritten⟩, fun hw => ?_, fun hw => (nomatch hw),
    fun _ h' => (nomatch h')⟩
  · change reader = .absent at hr
    rw [hr] at hreader
    exact absurd hreader (by decide)
  · exact absurd ((Reader.not_waits_of_hopeless hreader).symm.trans hw) Bool.noConfusion

/-- The reader goes on to where the socket is, or is not, as before. -/
theorem Tidy.goes {reader : Reader} (habsent : reader ≠ .absent)
    (hover : e.reader ≠ .over) (hover' : reader ≠ .over) (hhopeless : reader.hopeless = true → e.entry = none)
    (hearly : reader.early = true → e.reader.early = true)
    (hwaits : reader.waits = true → e.reader.waits = true)
    (hworks : e.writer = .writing → reader.early = false) : Tidy { e with reader } := by
  refine ⟨fun hr => absurd hr habsent, h.inbox, fun st hst => ?_, h.kept, hhopeless, h.emptied,
    fun hr => h.early (hearly hr), fun hr => h.waits (hwaits hr), hworks, h.inboxed⟩
  have hread := h.read_done st hst
  exact ⟨fun hr => absurd (hread.mp hr) hover, fun hr => absurd hr hover'⟩

theorem Tidy.take {out : Option ℕ} (htake : e.take out = some e') : Tidy e' := by
  -- before the pipe runs there is no writer at work
  have hearly : e.reader.early = true → e.writer ≠ .writing := fun he hw =>
    Bool.noConfusion (he.symm.trans (h.works hw))
  have hhopeless := h.hopeless
  unfold End.take at htake
  split at htake
  case h_2 port hr =>
    cases htake
    exact h.abandon (by rw [hr]; rfl) rfl
  case h_9 => exact nomatch htake
  all_goals cases htake
  all_goals
    next hr =>
      rw [hr] at hearly hhopeless
      exact h.goes (by simp) (by simp [hr]) (by simp)
        hhopeless (by simp [Reader.early, hr]) (by simp [Reader.waits, hr])
        (fun hw => by first | rfl | exact absurd hw (hearly rfl))

/-- Every step of a thread leaves its end tidy. -/
theorem Tidy.step {out : Option ℕ} {ev : EndEvent} (hstep : e.step out ev = some e') :
    Tidy e' := by
  -- one thread reads and one writes: a step of either leaves the other where it is
  cases stepped hstep with
  | run_pipe hr =>
    refine ⟨fun h' => (nomatch h'), h.inbox, fun st hst => ?_, h.kept, fun h' => (nomatch h'),
      fun h' => (nomatch h'), fun h' => (nomatch h'), fun h' => (nomatch h'), fun _ => rfl,
      fun _ _ _ => Or.inl rfl⟩
    have hread := h.read_done st hst
    rw [hr] at hread
    exact ⟨fun hd => (nomatch hread.mp hd), fun h' => (nomatch h')⟩
  | clone_fails hr =>
    refine ⟨fun h' => (nomatch h'), h.inbox, fun st hst => ?_, h.kept, fun h' => (nomatch h'),
      fun _ => rfl, fun h' => (nomatch h'), fun h' => (nomatch h'), fun h' => (nomatch h'),
      fun _ _ _ => Or.inr rfl⟩
    have hread := h.read_done st hst
    rw [hr] at hread
    exact ⟨fun hd => (nomatch hread.mp hd), fun h' => (nomatch h')⟩
  | read bytes hr =>
    refine ⟨fun h' => (nomatch h'), h.inbox, fun st hst => ?_, h.kept, fun h' => (nomatch h'),
      h.emptied, fun h' => (nomatch h'), fun h' => (nomatch h'), fun _ => rfl, h.inboxed⟩
    have hread := h.read_done st hst
    rw [hr] at hread
    exact ⟨fun hd => (nomatch hread.mp hd), fun h' => (nomatch h')⟩
  | read_ends hr =>
    exact h.goes (by simp) (by simp [hr]) (by simp) (by simp [Reader.hopeless])
      (by simp [Reader.early]) (by simp [Reader.waits]) (by simp [Reader.early])
  | take => exact h.take hstep
  | end_reading hr =>
    unfold End.end_reading
    split
    next st hst =>
      have hread := h.read_done st hst
      rw [hr] at hread
      refine ⟨fun h' => (nomatch h'), fun st' hst' => ?_, fun st' hst' => ?_, fun st' hst' => ?_,
        fun h' => (nomatch h'), h.emptied, fun h' => (nomatch h'), fun h' => (nomatch h'), fun _ => rfl,
        fun st' hst' hin => ?_⟩
      -- the entry stays while the writer has not given its inbox up
      all_goals
        dsimp only at hst'
        split at hst'
        next hinbox =>
          cases hst'
          first
            | exact h.inbox st hst
            | exact ⟨fun _ => rfl, fun _ => rfl⟩
            | exact Or.inl hinbox
            | exact h.inboxed st hst hinbox
        next => exact nomatch hst'
    next hnone =>
      refine ⟨fun h' => (nomatch h'), h.inbox, fun st hst => (nomatch hnone.symm.trans hst), h.kept,
        fun h' => (nomatch h'), h.emptied, fun h' => (nomatch h'), fun h' => (nomatch h'), fun _ => rfl,
        h.inboxed⟩
  | write bytes inbox hw hinbox =>
    have hlate := h.works hw
    refine ⟨fun hr => ?_, h.inbox, h.read_done, h.kept, h.hopeless, fun hw' => ?_, fun hr => ?_,
      h.waits, h.works, h.inboxed⟩
    · rw [show e.reader = _ from hr] at hlate
      exact nomatch hlate
    · rw [show e.writer = _ from hw] at hw'
      exact nomatch hw'
    · exact Bool.noConfusion (hlate.symm.trans hr)
  | write_fails n bytes inbox hw hinbox =>
    have hlate := h.works hw
    refine ⟨fun hr => ?_, h.inbox, h.read_done, h.kept, h.hopeless, fun _ => rfl, fun hr => ?_,
      fun hr => ?_, fun h' => (nomatch h'), fun _ _ _ => Or.inr rfl⟩
    · rw [show e.reader = _ from hr] at hlate
      exact nomatch hlate
    · exact Bool.noConfusion (hlate.symm.trans hr)
    · exact Bool.noConfusion (hlate.symm.trans (Reader.early_of_waits hr))
  | shut hc =>
    have hlate := h.works hc.1
    refine ⟨fun hr => ?_, h.inbox, h.read_done, h.kept, h.hopeless, fun _ => hc.2.1, h.early,
      fun hr => ?_, fun h' => (nomatch h'), fun st hst hin => ?_⟩
    · rw [show e.reader = _ from hr] at hlate
      exact nomatch hlate
    · exact Bool.noConfusion (hlate.symm.trans (Reader.early_of_waits hr))
    · have hgone := hc.2.2
      rw [End.disconnected, show e.entry = _ from hst] at hgone
      dsimp only at hgone
      rw [hin] at hgone
      exact nomatch hgone

/-- And so does sending a frame. -/
theorem Tidy.send {id c : ℕ} {alive : Bool} {frames : List Frame}
    (hsend : e.send id alive = some (c, frames, e')) : Tidy e' := by
  have hearly : e.reader.early = true → e.writer ≠ .writing := fun he hw =>
    Bool.noConfusion (he.symm.trans (h.works hw))
  have hhopeless := h.hopeless
  cases send_sent hsend with
  | opens port hr =>
    rw [hr] at hearly
    exact h.goes (by simp) (by simp [hr]) (by simp) (by simp [Reader.hopeless]) (by simp [Reader.early, hr])
      (by simp [Reader.waits, hr]) (fun hw => absurd hw (hearly rfl))
  | closes next hr =>
    obtain ⟨hr, rfl⟩ | ⟨hr, rfl⟩ := hr
    all_goals
      rw [hr] at hearly hhopeless
      exact h.goes (by simp) (by simp [hr]) (by simp)
        (by first | exact fun _ => hhopeless rfl | simp [Reader.hopeless])
        (by simp [Reader.early, hr]) (by simp [Reader.waits])
        (fun hw => by first | rfl | exact absurd hw (hearly rfl))
  | refused port hr => exact h.abandon (by rw [hr]; rfl) rfl
  | data bytes hr | lost bytes hr =>
    exact h.goes (by simp) (by simp [hr]) (by simp) (by simp [Reader.hopeless]) (by simp [Reader.early])
      (by simp [Reader.waits]) (fun _ => rfl)

end

/-! ## What a step does to the bytes -/

/-- What an end's own step can do to what it was given: the inbox gives something up at most,
and then takes nothing any more. -/
structure Near (e e' : End) : Prop where
  got : e'.got <+: e.got
  takes : e'.takes → e.takes ∧ e'.got = e.got
  half_closed : e'.half_closed = e.half_closed
  broken : e'.writer ≠ .broken → e.writer ≠ .broken ∧ e'.got = e.got

/-- What an end's own step can do to what it sends: it reads on, or goes on with what it has,
or gives up for want of a queue. -/
inductive Far (out : Option ℕ) (e e' : End) : Prop
  | goes (read : e'.read = e.read) (pending : e'.reader.pending = e.reader.pending)
      (done : e.reader.done = true → e'.reader.done = true)
      (tx : ∀ c, e'.reader.tx = some c → e.reader.tx = some c ∨ out = some c)
  | gives_up (read : e'.read = e.read) (out : out = none) (tx : e'.reader.tx = none)
      (done : e.reader.done = false)
  | reads (bytes : List UInt8) (read : e'.read = e.read ++ bytes) (sent : e.reader.pending = [])
      (pending : e'.reader.pending = bytes) (done : e.reader.done = false) (tx : e'.reader.tx = none)

section
variable {e e' : End}

/-- Only the reader's place changes. -/
theorem Near.goes (e : End) (reader : Reader) : Near e { e with reader } :=
  ⟨prefix_refl _, fun h => ⟨h, rfl⟩, rfl, fun h => ⟨h, rfl⟩⟩

theorem Near.drop (e : End) : Near e { e with entry := none } := by
  refine ⟨prefix_refl _, fun h => ?_, rfl, fun h => ⟨h, rfl⟩⟩
  obtain ⟨st, hst, -⟩ := h
  exact nomatch hst

theorem Near.abandon (e : End) (reader : Reader) : Near e (e.abandon reader) := by
  refine ⟨?_, fun h => ?_, rfl, fun h => absurd rfl h⟩
  · change e.written ++ [] <+: e.written ++ e.inbox.flatten
    rw [append_nil]
    exact prefix_append _ _
  · obtain ⟨st, hst, -⟩ := h
    exact nomatch hst

variable {out : Option ℕ}

theorem take_near (htake : e.take out = some e') : Near e e' := by
  unfold End.take at htake
  split at htake
  case h_2 => exact some.inj htake ▸ Near.abandon e _
  case h_9 => exact nomatch htake
  all_goals exact some.inj htake ▸ Near.goes e _

theorem step_near {ev : EndEvent} (h : Tidy e) (hstep : e.step out ev = some e') :
    Near e e' := by
  cases stepped hstep with
  | take => exact take_near hstep
  | run_pipe hr =>
    have hheld : e.writer = .held := h.waits (by rw [hr]; rfl)
    refine ⟨prefix_refl _, fun ht => ⟨?_, rfl⟩, rfl, fun _ => ⟨?_, rfl⟩⟩
    · obtain ⟨st, hst, hinbox, -⟩ := ht
      exact ⟨st, hst, hinbox, by rw [hheld]; rfl⟩
    · rw [hheld]
      exact Writer.noConfusion
  | clone_fails hr =>
    refine ⟨?_, fun ht => ?_, rfl, fun hw => absurd rfl hw⟩
    · change e.written ++ [] <+: e.written ++ e.inbox.flatten
      rw [append_nil]
      exact prefix_append _ _
    -- a writer that failed has not shut its end
    · obtain ⟨st, -, -, hw⟩ := ht
      exact nomatch hw
  | read bytes =>
    exact ⟨prefix_refl _, fun h => ⟨h, rfl⟩, rfl, fun h => ⟨h, rfl⟩⟩
  | read_ends =>
    exact Near.goes e _
  | end_reading =>
    unfold End.end_reading
    split
    next st hst =>
      refine ⟨prefix_refl _, fun ht => ⟨?_, rfl⟩, rfl, fun h => ⟨h, rfl⟩⟩
      obtain ⟨st', hst', -, hw⟩ := ht
      dsimp only at hst'
      split at hst'
      next hinbox => exact ⟨st, hst, hinbox, hw⟩
      next => exact nomatch hst'
    next => exact Near.goes e _
  | write bytes inbox hw hinbox =>
    -- what was written and what waits are together still what was got
    have hgot : e.written ++ bytes ++ inbox.flatten = e.got := by
      rw [End.got, hinbox, flatten_cons, append_assoc]
    refine ⟨hgot ▸ prefix_refl _, fun ht => ⟨ht, hgot⟩, rfl, fun h => ⟨h, hgot⟩⟩
  | write_fails n bytes inbox hw hinbox =>
    refine ⟨?_, fun ht => ?_, rfl, fun hw => absurd rfl hw⟩
    · change e.written ++ bytes.take n ++ [] <+: e.written ++ e.inbox.flatten
      rw [append_nil, hinbox, flatten_cons]
      exact (prefix_append_right_inj _).mpr
        ((List.take_prefix n bytes).trans (prefix_append _ _))
    · obtain ⟨st, -, -, hw⟩ := ht
      exact nomatch hw
  | shut hc =>
    refine ⟨prefix_refl _, fun ht => ?_, rfl, fun _ => ⟨?_, rfl⟩⟩
    · obtain ⟨st, -, -, hw⟩ := ht
      exact nomatch hw
    · rw [hc.1]
      exact Writer.noConfusion

theorem take_far (htake : e.take out = some e') : Far out e e' := by
  unfold End.take at htake
  split at htake
  case h_9 => exact nomatch htake
  all_goals
    next hr =>
      cases htake
      first
        | exact .gives_up rfl rfl rfl (by rw [hr]; rfl)
        | exact .goes rfl (by rw [hr]; rfl) (fun hd => by rw [hr] at hd; exact nomatch hd)
            (fun c hc => Or.inr hc)

theorem step_far {ev : EndEvent} (hstep : e.step out ev = some e') : Far out e e' := by
  cases stepped hstep with
  | take => exact take_far hstep
  | read bytes hr =>
    exact .reads bytes rfl (by rw [hr]; rfl) rfl (by rw [hr]; rfl) rfl
  | end_reading hr =>
    have hread : (e.end_reading).read = e.read := by
      unfold End.end_reading
      split <;> rfl
    exact .goes hread (by rw [hr]; rfl) (fun _ => rfl) (fun c hc => (nomatch hc))
  | write | write_fails | shut =>
    exact .goes rfl rfl id (fun c hc => Or.inl hc)
  | run_pipe hr | clone_fails hr | read_ends hr =>
    exact .goes rfl (by rw [hr]; rfl) (fun hd => by rw [hr] at hd; exact nomatch hd)
      (fun c hc => (nomatch hc))

end

/-- On the client: nothing is sent yet. -/
def Reader.unopened : Reader → Bool
  | absent | opening _ _ | refused => true
  | _ => false

section
variable {e e' : End} {out : Option ℕ}

theorem Far.tx {c : ℕ} (h : Far out e e') (hc : e'.reader.tx = some c) :
    e.reader.tx = some c ∨ out = some c := by
  cases h with
  | goes _ _ _ htx => exact htx c hc
  | gives_up _ _ htx _ | reads _ _ _ _ _ htx => exact nomatch htx.symm.trans hc

/-- Nothing happens to a stream that is not there. -/
theorem step_untouched {ev : EndEvent} : ({} : End).step out ev = none := by
  cases ev <;> rfl

theorem take_unopened (htake : e.take out = some e') :
    e'.reader.unopened = e.reader.unopened := by
  unfold End.take at htake
  split at htake
  case h_9 => exact nomatch htake
  all_goals
    next hr =>
      cases htake
      rw [hr]
      rfl

theorem step_unopened {ev : EndEvent} (hstep : e.step out ev = some e') :
    e'.reader.unopened = e.reader.unopened := by
  cases stepped hstep with
  | take => exact take_unopened hstep
  | end_reading hr =>
    rw [hr]
    rfl
  | write | write_fails | shut =>
    rfl
  | run_pipe hr | clone_fails hr | read_ends hr | read _ hr =>
    rw [hr]
    rfl

/-- An entry that is gone does not come back. -/
theorem step_entry {ev : EndEvent} (hstep : e.step out ev = some e') (hnone : e.entry = none) :
    e'.entry = none := by
  cases stepped hstep with
  | take =>
    change e.take out = some e' at hstep
    unfold End.take at hstep
    split at hstep
    case h_2 => exact some.inj hstep ▸ rfl
    case h_9 => exact nomatch hstep
    all_goals exact some.inj hstep ▸ hnone
  | end_reading =>
    rw [End.end_reading, hnone]
    exact hnone
  | _ =>
    exact hnone

theorem send_entry {id c : ℕ} {alive : Bool} {frames : List Frame}
    (hsend : e.send id alive = some (c, frames, e')) (hnone : e.entry = none) : e'.entry = none := by
  cases send_sent hsend with
  | refused => rfl
  | _ => exact hnone

theorem deliver_entry (hnone : e.entry = none) (d : List UInt8) : e.deliver d = e := by
  rw [End.deliver, hnone]

theorem end_writing_entry (hnone : e.entry = none) : e.end_writing = e := by
  rw [End.end_writing, hnone]

end

section
variable {e e' : End} {id c : ℕ} {alive : Bool} {frames : List Frame}

variable (h : Sent e id c alive frames e')
include h

theorem Sent.tx : e.reader.tx = some c := by
  cases h with
  | opens _ hr _ | refused _ hr _ | data _ hr _ | lost _ hr _ => rw [hr]; rfl
  | closes next hr => obtain ⟨hr, -⟩ | ⟨hr, -⟩ := hr <;> rw [hr] <;> rfl

theorem Sent.tx_none : e'.reader.tx = none := by
  cases h with
  | closes next hr => obtain ⟨-, rfl⟩ | ⟨-, rfl⟩ := hr <;> rfl
  | _ => rfl

theorem Sent.open (hopen : e.reader.unopened = false) :
    e'.reader.unopened = false := by
  cases h with
  | refused _ hr _ =>
    rw [hr] at hopen
    exact nomatch hopen
  | closes next hr => obtain ⟨-, rfl⟩ | ⟨-, rfl⟩ := hr <;> rfl
  | _ => rfl

theorem Sent.ids : ∀ f ∈ frames, f.id = id := by
  intro f hf
  cases h with
  | opens _ _ _ | data _ _ _ => rw [mem_singleton.mp hf]; rfl
  | refused _ _ _ | lost _ _ _ => exact absurd hf not_mem_nil
  | closes next hr =>
    split at hf
    · rw [mem_singleton.mp hf]
      rfl
    · exact absurd hf not_mem_nil

end

section
variable {e : End}

theorem deliver_reader (e : End) (d : List UInt8) :
    (e.deliver d).read = e.read ∧ (e.deliver d).reader = e.reader := by
  unfold End.deliver
  split
  · split <;> exact ⟨rfl, rfl⟩
  · exact ⟨rfl, rfl⟩

theorem end_writing_reader (e : End) :
    e.end_writing.read = e.read ∧ e.end_writing.reader = e.reader := by
  unfold End.end_writing
  split <;> exact ⟨rfl, rfl⟩

theorem deliver_takes {d : List UInt8} (h : (e.deliver d).takes) : e.takes := by
  unfold End.deliver at h
  split at h
  · split at h <;> exact h
  · exact h

theorem end_writing_takes (e : End) : ¬ e.end_writing.takes := by
  rintro ⟨st, hst, hinbox, -⟩
  unfold End.end_writing at hst
  split at hst
  · dsimp only at hst
    split at hst
    · exact nomatch hst
    · rw [← some.inj hst] at hinbox
      exact nomatch hinbox
  next hnone => exact nomatch hnone.symm.trans hst

end

/-! ## From one end to the other -/

def Frame.bytes : Frame → List UInt8
  | tcpData _ d => d
  | _ => []

def Frame.opens : Frame → Bool
  | tcpOpen _ _ => true
  | _ => false

def Frame.closes : Frame → Bool
  | tcpClose _ => true
  | _ => false

variable (frames : List Frame)

def bytes_of : List UInt8 := frames.flatMap Frame.bytes

/-- No bytes come behind a `tcpClose`. -/
def ClosedLast : List Frame → Prop
  | [] => True
  | frame :: frames => (frame.closes = true → bytes_of frames = []) ∧ ClosedLast frames

def Closes : Prop := ∃ f ∈ frames, f.closes = true

theorem bytes_of_append (a b : List Frame) : bytes_of (a ++ b) = bytes_of a ++ bytes_of b :=
  flatMap_append

theorem ClosedLast.append {frames : List Frame} (h : ClosedLast frames) {f : Frame}
    (hf : Closes frames → f.bytes = []) : ClosedLast (frames ++ [f]) := by
  induction frames with
  | nil => exact ⟨fun _ => rfl, trivial⟩
  | cons frame frames ih =>
    refine ⟨fun hc => ?_, ih h.2 fun ⟨g, hg, hgc⟩ => hf ⟨g, mem_cons_of_mem _ hg, hgc⟩⟩
    change bytes_of (frames ++ [f]) = []
    rw [bytes_of_append, h.1 hc, bytes_of, flatMap_singleton,
      hf ⟨frame, mem_cons_self, hc⟩]
    rfl

/-- What goes from the end `far` to the end `near` in the frames between them. `reaches` says
that `far` may still send on this connection, `takes` that `near` takes what arrives, `done`
that `far` sends no more bytes. -/
structure Flow (far near : End) (frames : List Frame) (reaches takes done : Prop)
    (sent : List UInt8) : Prop where
  read : sent <+: far.read
  kept : reaches → sent ++ far.reader.pending = far.read
  taken : takes → near.got ++ bytes_of frames = sent
  got : near.got <+: sent
  closed : ClosedLast frames
  ended : Closes frames → done ∧ sent = far.read
  half_closed : near.half_closed = true → done ∧ (near.writer ≠ .broken → near.got = far.read)

namespace Flow

variable {far far' near near' : End} {frames rest : List Frame} {sent d : List UInt8}
  {reaches reaches' takes takes' done done' : Prop}

variable (h : Flow far near frames reaches takes done sent)
include h

/-- The near end goes on. -/
theorem near_step (hn : Near near near')
    (htakes : takes' → takes ∧ near'.got = near.got) :
    Flow far near' frames reaches takes' done sent := by
  refine ⟨h.read, h.kept, fun ht => ?_, hn.got.trans h.got, h.closed, h.ended, fun hc => ?_⟩
  · obtain ⟨ht', hgot⟩ := htakes ht
    rw [hgot]
    exact h.taken ht'
  · rw [hn.half_closed] at hc
    obtain ⟨hd, hgot⟩ := h.half_closed hc
    refine ⟨hd, fun hb => ?_⟩
    obtain ⟨hb', hsame⟩ := hn.broken hb
    rw [hsame]
    exact hgot hb'

/-- The far end goes on. -/
theorem far_step {out : Option ℕ}
    (hf : Far out far far') (hreaches : reaches' → reaches)
    (hlost : out = none → far'.reader.tx = none → ¬ reaches')
    (hdone : done → far.reader.done = true) (hdone' : far'.reader.done = true → done') :
    Flow far' near frames reaches' takes done' sent := by
  cases hf with
  | goes hread hpending hd htx =>
    refine ⟨hread ▸ h.read, fun hr => ?_, h.taken, h.got, h.closed, fun hc => ?_, fun hc => ?_⟩
    · rw [hread, hpending]
      exact h.kept (hreaches hr)
    · obtain ⟨hd', hsent⟩ := h.ended hc
      exact ⟨hdone' (hd (hdone hd')), hread ▸ hsent⟩
    · obtain ⟨hd', hgot⟩ := h.half_closed hc
      exact ⟨hdone' (hd (hdone hd')), hread ▸ hgot⟩
  | gives_up hread hout htx hd =>
    have hnot : ¬ done := fun h' => Bool.noConfusion (hd.symm.trans (hdone h'))
    exact ⟨hread ▸ h.read, fun hr => absurd hr (hlost hout htx), h.taken, h.got, h.closed,
      fun hc => absurd (h.ended hc).1 hnot, fun hc => absurd (h.half_closed hc).1 hnot⟩
  | reads bytes hread hsent hpending hd htx =>
    have hnot : ¬ done := fun h' => Bool.noConfusion (hd.symm.trans (hdone h'))
    refine ⟨?_, fun hr => ?_, h.taken, h.got, h.closed, fun hc => absurd (h.ended hc).1 hnot,
      fun hc => absurd (h.half_closed hc).1 hnot⟩
    · rw [hread]
      exact h.read.trans (prefix_append _ _)
    · have hkept := h.kept (hreaches hr)
      rw [hsent, append_nil] at hkept
      rw [hread, hpending, hkept]

/-- The far end's socket is where it was. -/
theorem far_same (hread : far'.read = far.read)
    (hreader : far'.reader = far.reader) (hdone : done → done') :
    Flow far' near frames reaches takes done' sent := by
  refine ⟨hread ▸ h.read, fun hr => ?_, h.taken, h.got, h.closed, fun hc => ?_, fun hc => ?_⟩
  · rw [hread, hreader]
    exact h.kept hr
  · exact ⟨hdone (h.ended hc).1, hread ▸ (h.ended hc).2⟩
  · exact ⟨hdone (h.half_closed hc).1, hread ▸ (h.half_closed hc).2⟩

/-- The far end sends a chunk. -/
theorem send_data (hr : reaches)
    (hnot : ¬ done) (id : ℕ) (hpending : far.reader.pending = d) {reader : Reader}
    (hempty : reader.pending = []) :
    Flow { far with reader } near (frames ++ [.tcpData id d]) reaches takes done (sent ++ d) := by
  have hkept := h.kept hr
  rw [hpending] at hkept
  have hopen : ¬ Closes frames := fun hc => hnot (h.ended hc).1
  refine ⟨?_, fun _ => ?_, fun ht => ?_, h.got.trans (prefix_append _ _),
    h.closed.append fun hc => absurd hc hopen, fun hc => ?_, fun hc => absurd (h.half_closed hc).1 hnot⟩
  · exact hkept ▸ prefix_refl _
  · dsimp only
    rw [hempty, append_nil, hkept]
  · rw [bytes_of_append, ← append_assoc, h.taken ht, bytes_of, flatMap_singleton]
    rfl
  · obtain ⟨f, hf, hfc⟩ := hc
    rcases mem_append.mp hf with hold | hnew
    · exact absurd ⟨f, hold, hfc⟩ hopen
    · rw [mem_singleton.mp hnew] at hfc
      exact nomatch hfc

/-- The far end sends that nothing more comes. -/
theorem send_close (hr : reaches) (id : ℕ)
    (hpending : far.reader.pending = []) {reader : Reader} (hempty : reader.pending = [])
    (hdone' : done') :
    Flow { far with reader } near (frames ++ [.tcpClose id]) reaches takes done' sent := by
  have hkept := h.kept hr
  rw [hpending, append_nil] at hkept
  refine ⟨h.read, fun _ => ?_, fun ht => ?_, h.got, h.closed.append fun _ => rfl,
    fun _ => ⟨hdone', hkept⟩, fun hc => ⟨hdone', (h.half_closed hc).2⟩⟩
  · dsimp only
    rw [hempty, append_nil, hkept]
  · rw [bytes_of_append, ← append_assoc, h.taken ht, bytes_of, flatMap_singleton]
    exact append_nil _

/-- What the far end may still do gets less. -/
theorem weaken (hreaches : reaches' → reaches)
    (htakes : takes' → takes) (hdone : done → done') :
    Flow far near frames reaches' takes' done' sent :=
  ⟨h.read, fun hr => h.kept (hreaches hr), fun ht => h.taken (htakes ht), h.got, h.closed,
    fun hc => ⟨hdone (h.ended hc).1, (h.ended hc).2⟩,
    fun hc => ⟨hdone (h.half_closed hc).1, (h.half_closed hc).2⟩⟩

omit h

/-- A frame without bytes is taken off, and nothing is given up for it. -/
theorem skip {frame : Frame} (h : Flow far near (frame :: rest) reaches takes done sent)
    (hbytes : frame.bytes = []) (hgot : near'.got = near.got)
    (hhalf : near'.half_closed = true →
      near.half_closed = true ∧ (near'.writer ≠ .broken → near.writer ≠ .broken))
    (htakes : takes' → takes) : Flow far near' rest reaches takes' done sent := by
  refine ⟨h.read, h.kept, fun ht => ?_, hgot ▸ h.got, h.closed.2, fun ⟨f, hf, hc⟩ => ?_, fun hc => ?_⟩
  · have htaken := h.taken (htakes ht)
    rw [bytes_of, flatMap_cons, hbytes, nil_append] at htaken
    rw [hgot]
    exact htaken
  · exact h.ended ⟨f, mem_cons_of_mem _ hf, hc⟩
  · obtain ⟨hold, hw⟩ := hhalf hc
    obtain ⟨hd, hsame⟩ := h.half_closed hold
    exact ⟨hd, fun hb => hgot.trans (hsame (hw hb))⟩

/-- A chunk arrives. -/
theorem arrive_data {id : ℕ} (h : Flow far near (.tcpData id d :: rest) reaches takes done sent)
    (htidy : Tidy near) (htakes : near.takes → takes) (htakes' : takes' → near.takes) :
    Flow far (near.deliver d) rest reaches takes' done sent := by
  have hended : Closes rest → done ∧ sent = far.read := fun ⟨f, hf, hc⟩ =>
    h.ended ⟨f, mem_cons_of_mem _ hf, hc⟩
  by_cases ht : near.takes
  · obtain ⟨st, hst, hinbox, hw⟩ := ht
    have hdeliver : near.deliver d = { near with inbox := near.inbox ++ [d] } := by
      rw [End.deliver, hst]
      dsimp only
      rw [hinbox, hw]
      rfl
    -- an end that takes chunks has not been half-closed
    have hhalf : near.half_closed = false := by
      have := htidy.inbox st hst
      rw [hinbox] at this
      cases hh : near.half_closed with
      | false => rfl
      | true =>
        rw [hh] at this
        exact nomatch this
    have htaken := h.taken (htakes ⟨st, hst, hinbox, hw⟩)
    rw [bytes_of, flatMap_cons, ← append_assoc] at htaken
    have hgot : (near.deliver d).got = near.got ++ d := by
      rw [hdeliver, End.got, End.got, flatten_append, flatten_singleton, append_assoc]
    refine ⟨h.read, h.kept, fun _ => ?_, ?_, h.closed.2, hended, fun hc => ?_⟩
    · rw [hgot]
      exact htaken
    · rw [hgot]
      exact ⟨_, htaken⟩
    · rw [hdeliver] at hc
      exact Bool.noConfusion (hhalf.symm.trans hc)
  · have hdeliver : near.deliver d = near := by
      unfold End.deliver
      split
      next st hst =>
        split
        next hc =>
          rw [Bool.and_eq_true] at hc
          exact absurd ⟨st, hst, hc.1, hc.2⟩ ht
        next => rfl
      next => rfl
    rw [hdeliver]
    exact ⟨h.read, h.kept, fun ht' => absurd (htakes' ht') ht, h.got, h.closed.2, hended, h.half_closed⟩

/-- That nothing more comes arrives. -/
theorem arrive_close {id : ℕ} (h : Flow far near (.tcpClose id :: rest) reaches takes done sent)
    (htidy : Tidy near) (htakes : near.takes → takes) (htakes' : ¬ takes') :
    Flow far near.end_writing rest reaches takes' done sent := by
  have hended : Closes rest → done ∧ sent = far.read := fun ⟨f, hf, hc⟩ =>
    h.ended ⟨f, mem_cons_of_mem _ hf, hc⟩
  have hnow : done ∧ sent = far.read := h.ended ⟨_, mem_cons_self, rfl⟩
  cases hst : near.entry with
  | none =>
    have hsame : near.end_writing = near := by rw [End.end_writing, hst]
    rw [hsame]
    exact ⟨h.read, h.kept, fun ht => absurd ht htakes', h.got, h.closed.2, hended, h.half_closed⟩
  | some st =>
    have hsame : near.end_writing.got = near.got ∧ near.end_writing.writer = near.writer ∧
        near.end_writing.half_closed = (near.half_closed || st.inbox) := by
      rw [End.end_writing, hst]
      exact ⟨rfl, rfl, rfl⟩
    obtain ⟨hgot, hwriter, hhalf⟩ := hsame
    refine ⟨h.read, h.kept, fun ht => absurd ht htakes', hgot ▸ h.got, h.closed.2, hended, fun hc => ?_⟩
    rw [hhalf, Bool.or_eq_true] at hc
    rw [hgot, hwriter]
    rcases hc with hold | hinbox
    · exact h.half_closed hold
    · refine ⟨hnow.1, fun hb => ?_⟩
      -- the inbox was open, so everything the far end sent is there
      have hw : near.writer.receives = true := (htidy.inboxed st hst hinbox).resolve_right hb
      have htaken := h.taken (htakes ⟨st, hst, hinbox, hw⟩)
      rw [bytes_of, flatMap_cons, ← bytes_of, h.closed.1 rfl] at htaken
      rw [← hnow.2, ← htaken]
      exact (append_nil _).symm

end Flow

end Lpm.PortTunnel
