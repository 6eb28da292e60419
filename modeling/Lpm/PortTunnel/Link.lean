/-
A stream that was opened: its two ends and the frames between them.

Each step of one of the two machines is one of the steps below, seen from the stream; the
client may be sending on a newer connection by then, which the stream knows as frames that do
not arrive (`reaches`).
-/
import Lpm.PortTunnel.Ends

set_option autoImplicit false

namespace Lpm.PortTunnel

open List

/-- The frame that opens the stream is on its way. -/
def Waiting (frames : List Frame) : Prop := ∃ f ∈ frames, f.opens = true

theorem Waiting.append {frames : List Frame} {f : Frame} (hf : f.opens = false) :
    Waiting (frames ++ [f]) ↔ Waiting frames := by
  constructor
  · rintro ⟨g, hg, ho⟩
    rcases mem_append.mp hg with hold | hnew
    · exact ⟨g, hold, ho⟩
    · rw [mem_singleton.mp hnew] at ho
      exact Bool.noConfusion (hf.symm.trans ho)
  · rintro ⟨g, hg, ho⟩
    exact ⟨g, mem_append_left _ hg, ho⟩

theorem not_waiting_nil : ¬ Waiting [] := fun ⟨_, hf, _⟩ => not_mem_nil hf

/-- The host sends nothing for the stream any more. -/
def HostDone (host : End) (ups : List Frame) : Prop :=
  host.reader.done = true ∨ host = {} ∧ ¬ Waiting ups

structure Link (client host : End) (ups downs : List Frame) (creach hreach : Prop) : Prop where
  tidy : Tidy host
  started : client.reader.unopened = false
  waiting : Waiting ups → host = {} ∧ downs = [] ∧ ∃ id port rest, ups = .tcpOpen id port :: rest ∧ ¬ Waiting rest
  up : ∃ sent, Flow client host ups creach (host.takes ∨ Waiting ups) (client.reader.done = true) sent
  down : ∃ sent, Flow host client downs hreach client.takes (HostDone host ups) sent

namespace Link

variable {client client' host host' : End} {ups downs rest : List Frame}
  {creach creach' hreach hreach' : Prop} {out : Option ℕ} {ev : EndEvent}

variable (h : Link client host ups downs creach hreach)
include h

/-- What the ends may still do gets less. -/
theorem weaken (hc : creach' → creach)
    (hh : hreach' → hreach) : Link client host ups downs creach' hreach' := by
  obtain ⟨sent, hup⟩ := h.up
  obtain ⟨sent', hdown⟩ := h.down
  exact ⟨h.tidy, h.started, h.waiting, ⟨sent, hup.weaken hc id id⟩, ⟨sent', hdown.weaken hh id id⟩⟩

variable {reader : Reader}

omit h in
/-- The stream has just been opened. -/
theorem start (hread : client.read = []) (hgot : client.got = []) (hhalf : client.half_closed = false)
    (hreader : reader = .piping) (id port : ℕ) :
    Link { client with reader } {} [.tcpOpen id port] [] creach hreach := by
  subst hreader
  have hends : ¬ Closes [.tcpOpen id port] := fun ⟨f, hf, hc⟩ => by
    rw [mem_singleton.mp hf] at hc
    exact nomatch hc
  refine ⟨Tidy.start, rfl, fun _ => ⟨rfl, rfl, id, port, [], rfl, not_waiting_nil⟩, ⟨[], ?_⟩, ⟨[], ?_⟩⟩
  · exact ⟨List.nil_prefix, fun _ => hread.symm, fun _ => rfl, nil_prefix,
      ⟨fun hc => (nomatch hc), trivial⟩, fun hc => absurd hc hends, fun hc => (nomatch hc)⟩
  · refine ⟨List.nil_prefix, fun _ => rfl, fun _ => ?_, ?_, trivial,
      fun ⟨f, hf, _⟩ => absurd hf not_mem_nil, fun hc => Bool.noConfusion (hhalf.symm.trans hc)⟩
    · exact (append_nil _).trans hgot
    · exact prefix_nil.mpr hgot

/-! ### The client's threads -/

/-- The client's end goes on. -/
theorem client_goes (hnear : Near client client')
    (hfar : Far out client client') (hunopened : client'.reader.unopened = false)
    (hc : creach' → creach) (hlost : out = none → client'.reader.tx = none → ¬ creach') :
    Link client' host ups downs creach' hreach := by
  obtain ⟨sent, hup⟩ := h.up
  obtain ⟨sent', hdown⟩ := h.down
  exact ⟨h.tidy, hunopened, h.waiting, ⟨sent, hup.far_step hfar hc hlost id id⟩,
    ⟨sent', hdown.near_step hnear hnear.takes⟩⟩

theorem client_step (htidy : Tidy client)
    (hstep : client.step out ev = some client') (hc : creach' → creach)
    (hlost : out = none → client'.reader.tx = none → ¬ creach') :
    Link client' host ups downs creach' hreach :=
  h.client_goes (step_near htidy hstep) (step_far hstep)
    ((step_unopened hstep).trans h.started) hc hlost

/-- A chunk goes out on the stream's connection. -/
theorem client_data (hr : creach) {bytes : List UInt8}
    {tx : Option ℕ} (hreader : client.reader = .sending bytes tx) (i : ℕ) :
    Link { client with reader := .reading } host (ups ++ [.tcpData i bytes]) downs creach hreach := by
  obtain ⟨sent, hup⟩ := h.up
  obtain ⟨sent', hdown⟩ := h.down
  have hwait : Waiting (ups ++ [.tcpData i bytes]) ↔ Waiting ups := Waiting.append rfl
  have hdone : HostDone host ups → HostDone host (ups ++ [.tcpData i bytes]) :=
    Or.imp_right fun ⟨hh, hw⟩ => ⟨hh, fun hw' => hw (hwait.mp hw')⟩
  refine ⟨h.tidy, rfl, fun hw => ?_, ⟨sent ++ bytes, ?_⟩, ⟨sent', ?_⟩⟩
  · obtain ⟨hh, hd, j, port, rest, hups, hrest⟩ := h.waiting (hwait.mp hw)
    refine ⟨hh, hd, j, port, rest ++ [.tcpData i bytes], by rw [hups]; rfl, fun hw' => hrest ?_⟩
    exact (Waiting.append rfl).mp hw'
  · have hnot : ¬ client.reader.done = true := by
      rw [hreader]
      exact Bool.false_ne_true
    have hpending : client.reader.pending = bytes := by rw [hreader]; rfl
    have hflow : Flow { client with reader := .reading } host (ups ++ [.tcpData i bytes]) creach _ _
        (sent ++ bytes) := hup.send_data hr hnot i hpending rfl
    exact hflow.weaken id (Or.imp_right hwait.mp) (fun hd => absurd hd hnot)
  · exact (hdown.weaken id id hdone).near_step (Near.goes client _) fun ht => ⟨ht, rfl⟩

/-- A thread of the client goes on without sending on the stream's connection. -/
theorem client_unsent
    (hpending : reader.pending = client.reader.pending ∨ client.reader.done = false ∧ ¬ creach')
    (hdone : client.reader.done = true → reader.done = true) (htx : reader.tx = none)
    (hunopened : reader.unopened = false) (hc : creach' → creach) :
    Link { client with reader } host ups downs creach' hreach := by
  rcases hpending with hsame | ⟨hnot, hlost⟩
  · refine h.client_goes (Near.goes client reader) (?_ : Far (some 0) _ _) hunopened hc (fun h0 => (nomatch h0))
    exact .goes rfl hsame hdone fun c h' => (nomatch htx.symm.trans h')
  · exact h.client_goes (Near.goes client reader) (.gives_up rfl rfl htx hnot) hunopened hc
      fun _ _ => hlost

/-- That nothing more comes goes out on the stream's connection. -/
theorem client_close (hr : creach)
    (hpending : client.reader.pending = []) (hempty : reader.pending = [])
    (hdone : reader.done = true) (hunopened : reader.unopened = false) (i : ℕ) :
    Link { client with reader } host (ups ++ [.tcpClose i]) downs creach hreach := by
  obtain ⟨sent, hup⟩ := h.up
  obtain ⟨sent', hdown⟩ := h.down
  have hwait : Waiting (ups ++ [.tcpClose i]) ↔ Waiting ups := Waiting.append rfl
  have hhost : HostDone host ups → HostDone host (ups ++ [.tcpClose i]) :=
    Or.imp_right fun ⟨hh, hw⟩ => ⟨hh, fun hw' => hw (hwait.mp hw')⟩
  refine ⟨h.tidy, hunopened, fun hw => ?_, ⟨sent, ?_⟩, ⟨sent', ?_⟩⟩
  · obtain ⟨hh, hd, j, port, rest, hups, hrest⟩ := h.waiting (hwait.mp hw)
    refine ⟨hh, hd, j, port, rest ++ [.tcpClose i], by rw [hups]; rfl, fun hw' => hrest ?_⟩
    exact (Waiting.append rfl).mp hw'
  · exact (hup.send_close hr i hpending hempty hdone).weaken id (Or.imp_right hwait.mp) id
  · exact (hdown.weaken id id hhost).near_step (Near.goes client _) fun ht => ⟨ht, rfl⟩

theorem client_drop :
    Link { client with entry := none } host ups downs creach hreach := by
  refine h.client_goes (Near.drop client) (?_ : Far (some 0) _ _) h.started id (fun h0 => (nomatch h0))
  exact .goes rfl rfl id fun c hc => Or.inl hc

/-! ### The host's threads -/

theorem there (hne : host ≠ {}) : ¬ Waiting ups :=
  fun hw => hne (h.waiting hw).1

/-- The host's end goes on. -/
theorem host_goes (hne : host ≠ {})
    (htidy : Tidy host') (hnear : Near host host') (hfar : Far out host host') (hh : hreach' → hreach)
    (hlost : out = none → host'.reader.tx = none → ¬ hreach') :
    Link client host' ups downs creach hreach' := by
  obtain ⟨sent, hup⟩ := h.up
  obtain ⟨sent', hdown⟩ := h.down
  have hnot := h.there hne
  refine ⟨htidy, h.started, fun hw => absurd hw hnot, ⟨sent, hup.near_step hnear ?_⟩,
    ⟨sent', hdown.far_step hfar hh hlost ?_ Or.inl⟩⟩
  · rintro (ht | hw)
    · exact ⟨Or.inl (hnear.takes ht).1, (hnear.takes ht).2⟩
    · exact absurd hw hnot
  · exact fun hd => hd.resolve_right fun hd => hne hd.1

theorem host_step {c : ℕ}
    (hstep : host.step (some c) ev = some host') : Link client host' ups downs creach hreach := by
  have hne : host ≠ {} := fun he => by
    rw [he, step_untouched] at hstep
    exact nomatch hstep
  exact h.host_goes hne (h.tidy.step hstep) (step_near h.tidy hstep) (step_far hstep) id
    fun h0 => (nomatch h0)

/-- The dial is answered. -/
theorem host_answers (hreader : host.reader = .dialing) :
    Link client { host with reader := .piping } ups downs creach hreach := by
  have hne : host ≠ {} := fun he => by
    rw [he] at hreader
    cases hreader
  have htidy : Tidy { host with reader := .piping } :=
    h.tidy.goes (by simp) (by simp [hreader]) (by simp) (by simp [Reader.hopeless])
      (by simp [hreader, Reader.early]) (by simp [hreader, Reader.waits])
      (fun hw => absurd (h.tidy.works hw) (by simp [hreader, Reader.early]))
  refine h.host_goes hne htidy (Near.goes host _) (?_ : Far (some 0) _ _) id fun h0 => (by cases h0)
  exact .goes rfl (by rw [hreader]; rfl) (by simp [hreader, Reader.done]) fun c hc => (by cases hc)

/-- Nothing answers the dial. -/
theorem host_fails (hreader : host.reader = .dialing) :
    Link client (host.abandon (.failing none)) ups downs creach hreach := by
  have hne : host ≠ {} := fun he => by
    rw [he] at hreader
    exact nomatch hreader
  refine h.host_goes hne (h.tidy.abandon (by rw [hreader]; rfl) rfl) (Near.abandon host _)
    (?_ : Far (some 0) _ _) id fun h0 => (nomatch h0)
  exact .goes rfl (by rw [hreader]; rfl) (by simp [hreader, Reader.done]) fun c hc => (nomatch hc)

/-- A chunk goes out to the client. -/
theorem host_data (hr : hreach) {bytes : List UInt8}
    {tx : Option ℕ} (hreader : host.reader = .sending bytes tx)
    (htidy : Tidy { host with reader := .reading }) (i : ℕ) :
    Link client { host with reader := .reading } ups (downs ++ [.tcpData i bytes]) creach hreach := by
  obtain ⟨sent, hup⟩ := h.up
  obtain ⟨sent', hdown⟩ := h.down
  have hne : host ≠ {} := fun he => by
    rw [he] at hreader
    exact nomatch hreader
  have hnot : ¬ HostDone host ups := by
    rintro (hd | hd)
    · rw [hreader] at hd
      exact nomatch hd
    · exact hne hd.1
  have hpending : host.reader.pending = bytes := by rw [hreader]; rfl
  have hflow : Flow { host with reader := .reading } client (downs ++ [.tcpData i bytes]) hreach _ _
      (sent' ++ bytes) := hdown.send_data hr hnot i hpending rfl
  refine ⟨htidy, h.started, fun hw => absurd hw (h.there hne), ⟨sent, ?_⟩,
    ⟨_, hflow.weaken id id fun hd => absurd hd hnot⟩⟩
  refine hup.near_step (Near.goes host _) ?_
  rintro (ht | hw)
  · exact ⟨Or.inl ht, rfl⟩
  · exact ⟨Or.inr hw, rfl⟩

/-- That nothing more comes goes out to the client. -/
theorem host_close (hr : hreach) (hne : host ≠ {})
    (hpending : host.reader.pending = []) (hempty : reader.pending = [])
    (hdone : reader.done = true) (htidy : Tidy { host with reader }) (i : ℕ) :
    Link client { host with reader } ups (downs ++ [.tcpClose i]) creach hreach := by
  obtain ⟨sent, hup⟩ := h.up
  obtain ⟨sent', hdown⟩ := h.down
  refine ⟨htidy, h.started, fun hw => absurd hw (h.there hne), ⟨sent, ?_⟩,
    ⟨sent', hdown.send_close hr i hpending hempty (Or.inl hdone)⟩⟩
  refine hup.near_step (Near.goes host _) ?_
  rintro (ht | hw)
  · exact ⟨Or.inl ht, rfl⟩
  · exact ⟨Or.inr hw, rfl⟩

theorem host_drop :
    Link client { host with entry := none } ups downs creach hreach := by
  by_cases hempty : host = {}
  · subst hempty
    exact h
  · refine h.host_goes hempty h.tidy.drop (Near.drop host) (?_ : Far (some 0) _ _) id fun h0 => (nomatch h0)
    exact .goes rfl rfl id fun c hc => Or.inl hc

omit h

/-! ### Frames arrive -/

theorem rest_not_waiting {f : Frame} (h : Link client host (f :: rest) downs creach hreach) :
    ¬ Waiting rest := by
  intro hw
  obtain ⟨g, hg, ho⟩ := hw
  obtain ⟨-, -, i, port, rest', hups, hrest⟩ := h.waiting ⟨g, mem_cons_of_mem _ hg, ho⟩
  obtain ⟨-, rfl⟩ := List.cons.inj hups
  exact hrest ⟨g, hg, ho⟩

/-- The stream is opened on the host. -/
theorem host_registers {i port : ℕ}
    (h : Link client host (.tcpOpen i port :: rest) downs creach hreach) :
    Link client (host.register .dialing) rest downs creach hreach := by
  obtain ⟨rfl, rfl, -⟩ := h.waiting ⟨_, mem_cons_self, rfl⟩
  obtain ⟨sent, hup⟩ := h.up
  obtain ⟨sent', hdown⟩ := h.down
  have hnot := h.rest_not_waiting
  refine ⟨Tidy.register rfl, h.started, fun hw => absurd hw hnot, ⟨sent, ?_⟩, ⟨sent', ?_⟩⟩
  · exact hup.skip rfl rfl (fun hc => (nomatch hc)) fun _ => Or.inr ⟨_, mem_cons_self, rfl⟩
  · refine ⟨hdown.read, hdown.kept, hdown.taken, hdown.got, hdown.closed,
      fun ⟨f, hf, _⟩ => absurd hf not_mem_nil, fun hc => ?_⟩
    obtain ⟨hd | hd, -⟩ := hdown.half_closed hc
    · exact nomatch hd
    · exact absurd ⟨_, mem_cons_self, rfl⟩ hd.2

/-- The port is none, and the host may answer that nothing comes. -/
theorem host_refuses {i port : ℕ} (j : ℕ) {answered : Prop} [Decidable answered]
    (h : Link client host (.tcpOpen i port :: rest) downs creach hreach) :
    Link client host rest (if answered then downs ++ [.tcpClose j] else downs) creach hreach := by
  obtain ⟨rfl, rfl, -⟩ := h.waiting ⟨_, mem_cons_self, rfl⟩
  obtain ⟨sent, hup⟩ := h.up
  obtain ⟨sent', hdown⟩ := h.down
  have hnot := h.rest_not_waiting
  have hsent : sent' = [] := prefix_nil.mp hdown.read
  have hdone : HostDone {} rest := Or.inr ⟨rfl, hnot⟩
  have hhalf : client.half_closed = true → HostDone {} rest ∧
      (client.writer ≠ .broken → client.got = ({} : End).read) := fun hc =>
    ⟨hdone, (hdown.half_closed hc).2⟩
  refine ⟨h.tidy, h.started, fun hw => absurd hw hnot, ⟨sent, ?_⟩, ⟨sent', ?_⟩⟩
  · exact hup.skip rfl rfl (fun hc => (nomatch hc)) fun _ => Or.inr ⟨_, mem_cons_self, rfl⟩
  · by_cases ha : answered
    · rw [if_pos ha]
      refine ⟨hdown.read, hdown.kept, hdown.taken, hdown.got, ⟨fun _ => rfl, trivial⟩,
        fun _ => ⟨hdone, hsent⟩, hhalf⟩
    · rw [if_neg ha]
      exact ⟨hdown.read, hdown.kept, hdown.taken, hdown.got, trivial,
        fun ⟨f, hf, _⟩ => absurd hf not_mem_nil, hhalf⟩

/-- A chunk arrives at the host. -/
theorem host_takes_data {i : ℕ} {d : List UInt8}
    (h : Link client host (.tcpData i d :: rest) downs creach hreach) :
    Link client (host.deliver d) rest downs creach hreach := by
  obtain ⟨sent, hup⟩ := h.up
  obtain ⟨sent', hdown⟩ := h.down
  have hnot := h.rest_not_waiting
  refine ⟨h.tidy.deliver d, h.started, fun hw => absurd hw hnot, ⟨sent, ?_⟩, ⟨sent', ?_⟩⟩
  · exact hup.arrive_data h.tidy Or.inl fun ht => deliver_takes (ht.resolve_right hnot)
  · obtain ⟨hread, hreader⟩ := deliver_reader host d
    refine hdown.far_same hread hreader ?_
    rintro (hd | ⟨rfl, -⟩)
    · exact Or.inl (hreader ▸ hd)
    · exact Or.inr ⟨rfl, hnot⟩

/-- That nothing more comes arrives at the host. -/
theorem host_takes_close {i : ℕ}
    (h : Link client host (.tcpClose i :: rest) downs creach hreach) :
    Link client host.end_writing rest downs creach hreach := by
  obtain ⟨sent, hup⟩ := h.up
  obtain ⟨sent', hdown⟩ := h.down
  have hnot := h.rest_not_waiting
  refine ⟨h.tidy.end_writing, h.started, fun hw => absurd hw hnot, ⟨sent, ?_⟩, ⟨sent', ?_⟩⟩
  · exact hup.arrive_close h.tidy Or.inl fun ht => end_writing_takes host (ht.resolve_right hnot)
  · obtain ⟨hread, hreader⟩ := end_writing_reader host
    refine hdown.far_same hread hreader ?_
    rintro (hd | ⟨rfl, -⟩)
    · exact Or.inl (hreader ▸ hd)
    · exact Or.inr ⟨rfl, hnot⟩

/-- The frame at the head of what comes from the host: then the stream is there. -/
theorem ups_not_waiting {f : Frame} (h : Link client host ups (f :: rest) creach hreach) :
    ¬ Waiting ups := fun hw => cons_ne_nil _ _ (h.waiting hw).2.1

theorem client_takes_data {i : ℕ} {d : List UInt8}
    (h : Link client host ups (.tcpData i d :: rest) creach hreach) (htidy : Tidy client) :
    Link (client.deliver d) host ups rest creach hreach := by
  obtain ⟨sent, hup⟩ := h.up
  obtain ⟨sent', hdown⟩ := h.down
  obtain ⟨hread, hreader⟩ := deliver_reader client d
  refine ⟨h.tidy, hreader ▸ h.started, fun hw => absurd hw h.ups_not_waiting, ⟨sent, ?_⟩,
    ⟨sent', hdown.arrive_data htidy id deliver_takes⟩⟩
  exact hup.far_same hread hreader fun hd => hreader ▸ hd

theorem client_takes_close {i : ℕ}
    (h : Link client host ups (.tcpClose i :: rest) creach hreach) (htidy : Tidy client) :
    Link client.end_writing host ups rest creach hreach := by
  obtain ⟨sent, hup⟩ := h.up
  obtain ⟨sent', hdown⟩ := h.down
  obtain ⟨hread, hreader⟩ := end_writing_reader client
  refine ⟨h.tidy, hreader ▸ h.started, fun hw => absurd hw h.ups_not_waiting, ⟨sent, ?_⟩,
    ⟨sent', hdown.arrive_close htidy id (end_writing_takes client)⟩⟩
  exact hup.far_same hread hreader fun hd => hreader ▸ hd

/-- Another frame is passed over. -/
theorem client_skips {f : Frame} (h : Link client host ups (f :: rest) creach hreach)
    (hbytes : f.bytes = []) : Link client host ups rest creach hreach := by
  obtain ⟨sent', hdown⟩ := h.down
  exact ⟨h.tidy, h.started, fun hw => absurd hw h.ups_not_waiting, h.up,
    ⟨sent', hdown.skip hbytes rfl (fun hc => ⟨hc, id⟩) id⟩⟩

end Link

end Lpm.PortTunnel
