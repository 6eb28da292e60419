/-
The phone's terminal stream has no gap and no repeat: the text a screen was handed since its
last seed is what the Mac's terminal emitted from the seed's offset to the phone's own.

A chunk on its way is a slice of the stream that ends at its offset, whatever became of the
chunks before it. It is handed on only when it starts where the phone's offset stands, so the
slice the screen has grows by the slice that meets it. The phone's offset is gone, or a seed
is awaited, whenever a screen could be handed something else.
-/
import Lpm.Phone.Link

set_option autoImplicit false

open RustText Utf8

namespace Lpm.Phone

open List Option Function

open Transition

/-! ## What is said of a state -/

/-- The text a screen was handed since its last seed is the stream from the offset of the seed
to the offset the phone has got to. -/
def Whole (s : State) : Prop :=
  ∀ id screen seed known, s.screens.current id = some screen → screen.seed = some seed →
    s.streams.streamOffset id = some known →
    seed ≤ known ∧ known ≤ (as_bytes (s.emitted id)).length
      ∧ as_bytes screen.text = ((as_bytes (s.emitted id)).drop seed).take (known - seed)

/-! ## One terminal -/

/-- What holds of one terminal: its stream, its screens, and what the phone keeps of it. -/
structure Sound (emitted : Str) (stack : List Screen) (subscribed : Prop) (offset : Option ℕ)
    (awaiting : Bool) : Prop where
  shown : stack ≠ [] → subscribed ∧ (offset = none → awaiting = true)
  kept : ∀ screen ∈ stack, ∀ seed, screen.seed = some seed → ∃ stop, Slice emitted seed screen.text stop
  whole : ∀ screen seed known, stack.getLast? = some screen → screen.seed = some seed →
    offset = some known → Slice emitted seed screen.text known

section
variable {emitted : Str} {stack : List Screen} {subscribed : Prop} {offset : Option ℕ} {awaiting : Bool}

variable (h : Sound emitted stack subscribed offset awaiting)
include h

theorem Sound.grow (more : Str) :
    Sound (emitted ++ more) stack subscribed offset awaiting where
  shown := h.shown
  kept screen hin seed hseed := by
    obtain ⟨stop, hslice⟩ := h.kept screen hin seed hseed
    exact ⟨stop, hslice.grow more⟩
  whole screen seed known hlast hseed hknown := (h.whole screen seed known hlast hseed hknown).grow more

/-- A subscription: the offset is gone and a seed is awaited, so any of the screens there were
may be on top, and new ones. -/
theorem Sound.subscribe {stack' : List Screen}
    (hstack : ∀ screen ∈ stack', screen ∈ stack ∨ screen.seed = none) :
    Sound emitted stack' True none true where
  shown _ := ⟨trivial, fun _ => rfl⟩
  kept screen hin seed hseed := by
    rcases hstack screen hin with hin | hnone
    · exact h.kept screen hin seed hseed
    · rw [hnone] at hseed
      exact nomatch hseed
  whole _ _ _ _ _ hknown := nomatch hknown

omit h in
/-- With no screen there is nothing to say. -/
theorem Sound.unseen (offset : Option ℕ) : Sound emitted [] subscribed offset awaiting where
  shown hne := absurd rfl hne
  kept _ hin := absurd hin not_mem_nil
  whole _ _ _ hlast := nomatch hlast

/-- A screen below the top goes, and the one on top stays. -/
theorem Sound.less {stack' : List Screen}
    (hsub : ∀ screen ∈ stack', screen ∈ stack) (hlast : stack'.getLast? = stack.getLast?) :
    Sound emitted stack' subscribed offset awaiting where
  shown hne := by
    obtain ⟨screen, hin⟩ := exists_mem_of_ne_nil _ hne
    exact h.shown (ne_nil_of_mem (hsub screen hin))
  kept screen hin := h.kept screen (hsub screen hin)
  whole screen seed known htop := h.whole screen seed known (hlast ▸ htop)

omit h in
theorem handed_nil (f : Screen → Screen) : handed [] f = [] := rfl

omit h in
theorem handed_of_last {screen : Screen} (h : stack.getLast? = some screen) (f : Screen → Screen) :
    handed stack f = stack.dropLast ++ [f screen] := by
  rw [handed, h]

omit h in
/-- Only the screen on top is changed. -/
theorem mem_handed {f : Screen → Screen} {screen : Screen} (hin : screen ∈ handed stack f) :
    screen ∈ stack ∨ ∃ top, stack.getLast? = some top ∧ screen = f top := by
  rcases hlast : stack.getLast? with _ | top
  · rw [getLast?_eq_none_iff.mp hlast] at hin
    exact absurd hin not_mem_nil
  · rw [handed_of_last hlast] at hin
    rcases mem_append.mp hin with hin | hin
    · exact .inl ((dropLast_sublist stack).subset hin)
    · exact .inr ⟨top, rfl, mem_singleton.mp hin⟩

omit h in
theorem handed_top {f : Screen → Screen} {screen : Screen} (htop : (handed stack f).getLast? = some screen) :
    ∃ top, stack.getLast? = some top ∧ screen = f top := by
  rcases hlast : stack.getLast? with _ | top
  · rw [getLast?_eq_none_iff.mp hlast] at htop
    exact nomatch htop
  · rw [handed_of_last hlast, getLast?_concat] at htop
    exact ⟨top, rfl, (some.inj htop).symm⟩

omit h in
theorem handed_ne_nil {f : Screen → Screen} (h : handed stack f ≠ []) : stack ≠ [] := by
  rintro rfl
  exact h rfl

theorem Sound.seeded {seed : ℕ} (hseed : Slice emitted seed [] seed) :
    Sound emitted (handed stack fun screen => { screen with seed := some seed, text := [] })
      subscribed (some seed) false where
  shown hne := ⟨(h.shown (handed_ne_nil hne)).1, fun hnone => nomatch hnone⟩
  kept screen hin o ho := by
    rcases mem_handed hin with hin | ⟨top, -, rfl⟩
    · exact h.kept screen hin o ho
    · rw [← some.inj ho]
      exact ⟨seed, hseed⟩
  whole screen o known htop ho hknown := by
    obtain ⟨top, -, rfl⟩ := handed_top htop
    rw [← some.inj ho, ← some.inj hknown]
    exact hseed

omit h

/-- A chunk that starts where the phone's offset stands. -/
theorem Sound.applied {known off : ℕ} {data : Str}
    (h : Sound emitted stack subscribed (some known) awaiting)
    (hdata : Slice emitted known data off) :
    Sound emitted (handed stack fun screen => { screen with text := screen.text ++ data })
      subscribed (some off) awaiting where
  shown hne := ⟨(h.shown (handed_ne_nil hne)).1, fun hnone => nomatch hnone⟩
  kept screen hin o ho := by
    rcases mem_handed hin with hin | ⟨top, hlast, rfl⟩
    · exact h.kept screen hin o ho
    · exact ⟨off, (h.whole top o known hlast ho rfl).join hdata⟩
  whole screen o known' htop ho hknown := by
    obtain ⟨top, hlast, rfl⟩ := handed_top htop
    rw [← some.inj hknown]
    exact (h.whole top o known hlast ho rfl).join hdata

end

/-! ## The frames under way -/

/-- A chunk ends at its offset in the stream, and a seed says how far the stream had got. -/
def Frame.holds (emitted : String → Str) : Frame → Prop
  | .seed id _ off _ => ∃ seed, off = some seed ∧ Slice (emitted id) seed [] seed
  | .output id data off => ∃ start stop, off = some stop ∧ Slice (emitted id) start data stop

def Connection.frames (c : Connection) : List Frame := c.queue ++ c.down

/-- The invariant of every run. -/
structure Inv (s : State) : Prop where
  rings : ∀ id, ((s.rings id).getD {}).total = (as_bytes (s.emitted id)).length
  teeing : ∀ chunk ∈ s.teeing, ∃ start, Slice (s.emitted chunk.1) start chunk.2.1 chunk.2.2
  frames : ∀ c, s.connection = some c → ∀ frame ∈ c.frames, frame.holds s.emitted
  sound : ∀ id, Sound (s.emitted id) (s.screens id) (id ∈ s.streams.subscribed)
    (s.streams.streamOffset id) (s.streams.awaitingSeed id)

/-- Streams that go on. -/
def Grows (emitted emitted' : String → Str) : Prop := ∀ id, ∃ more, emitted' id = emitted id ++ more

theorem Slice.grows {emitted emitted' : String → Str} (h : Grows emitted emitted') {id : String}
    {start stop : ℕ} {part : Str} (hslice : Slice (emitted id) start part stop) :
    Slice (emitted' id) start part stop := by
  obtain ⟨more, hmore⟩ := h id
  rw [hmore]
  exact hslice.grow more

theorem Frame.holds.grows {emitted emitted' : String → Str} (h : Grows emitted emitted')
    {frame : Frame} (hframe : frame.holds emitted) : frame.holds emitted' := by
  cases frame with
  | seed id data off reset =>
    obtain ⟨seed, hoff, hslice⟩ := hframe
    exact ⟨seed, hoff, Slice.grows h hslice⟩
  | output id data off =>
    obtain ⟨start, stop, hoff, hslice⟩ := hframe
    exact ⟨start, stop, hoff, Slice.grows h hslice⟩

/-! ## The rings -/

theorem Ring.push_total (r : Ring) (text : Str) :
    (r.push text).total = r.total + (as_bytes text).length := by
  unfold Ring.push
  simp only
  by_cases hover : (r.buf ++ as_bytes text).length - Lpm.Terminal.RING_CAP > 0
  · rw [if_pos hover]
    simp only [Ring.total, length_drop, length_append] at hover ⊢
    omega
  · rw [if_neg hover]
    simp only [Ring.total, length_append]
    omega

variable (rings : Rings) (id : String)

theorem ring_push_self (text : Str) :
    (ring_push rings id text).1 id = some (((rings id).getD {}).push text) := update_self ..

theorem ring_push_other {id other : String} (h : other ≠ id) (text : Str) :
    (ring_push rings id text).1 other = rings other := update_of_ne h ..

theorem ring_push_off (text : Str) :
    (ring_push rings id text).2 = ((rings id).getD {}).total + (as_bytes text).length :=
  Ring.push_total _ _

/-- What was missed ends where the stream has got to. -/
theorem ring_since_total {rings : Rings} {id : String} {start off : ℕ} {data : Str}
    (h : ring_since rings id start = some (data, off)) : off = ((rings id).getD {}).total := by
  rw [ring_since] at h
  split at h
  · exact nomatch h
  next r hr =>
    split_ifs at h
    rw [hr, getD_some, ← (Prod.mk.inj (some.inj h)).2]

theorem ring_seed_total :
    (ring_seed rings id).2 = ((rings id).getD {}).total := by
  rw [ring_seed]
  split
  next hr =>
    rw [hr]
    rfl
  next r hr =>
    rw [hr]
    rfl

theorem seed_frame_holds {rings : Rings} {emitted : String → Str} {id : String}
    (h : ((rings id).getD {}).total = (as_bytes (emitted id)).length) (start : Option ℕ) :
    (seed_frame rings id start).holds emitted := by
  have hend := Slice.at_end (emitted id)
  rw [seed_frame]
  split
  next data off hsince =>
    obtain ⟨start, -, hsince⟩ := bind_eq_some_iff.mp hsince
    refine ⟨off, rfl, ?_⟩
    rw [ring_since_total hsince, h]
    exact hend
  · refine ⟨(ring_seed rings id).2, rfl, ?_⟩
    rw [ring_seed_total, h]
    exact hend

/-! ## What the phone does -/

section
variable {s : State} {id : String}

/-- Sending touches what is on its way to the Mac only. -/
theorem Inv.send (h : Inv s) (sent : List Wire) : Inv (s.send sent) := by
  refine ⟨h.rings, h.teeing, fun c hc => ?_, h.sound⟩
  rw [State.send, map_eq_some_iff] at hc
  obtain ⟨c', hc', rfl⟩ := hc
  exact h.frames c' hc'

/-- What becomes of the screens and of what the phone keeps of its terminals. -/
theorem Inv.with_streams (h : Inv s) {streams : TerminalStreams} {screens : TerminalScreens}
    (hsound : ∀ id, Sound (s.emitted id) (screens id) (id ∈ streams.subscribed)
      (streams.streamOffset id) (streams.awaitingSeed id)) : Inv { s with streams, screens } :=
  ⟨h.rings, h.teeing, h.frames, hsound⟩

variable (streams : TerminalStreams)

theorem mem_subscribe {other : String} :
    other ∈ (streams.subscribe id).1.subscribed ↔ other = id ∨ other ∈ streams.subscribed := by
  rw [TerminalStreams.subscribe]
  by_cases hin : id ∈ streams.subscribed
  · rw [if_pos hin]
    constructor
    · exact .inr
    · rintro (rfl | h)
      · exact hin
      · exact h
  · rw [if_neg hin, mem_append, mem_singleton, or_comm]

/-- A subscription, with the screens of its terminal changed to some of those there were and
new ones. -/
theorem Inv.subscribe (h : Inv s) {screens : TerminalScreens}
    (hothers : ∀ other, other ≠ id → screens other = s.screens other)
    (hstack : ∀ screen ∈ screens id, screen ∈ s.screens id ∨ screen.seed = none) :
    Inv ({ s with screens }.streaming (·.subscribe id)) := by
  refine Inv.send (@Inv.with_streams s h (s.streams.subscribe id).1 screens fun other => ?_) _
  by_cases hother : other = id
  · have hsound := (h.sound id).subscribe hstack
    subst hother
    have hin : other ∈ (s.streams.subscribe other).1.subscribed := (mem_subscribe s.streams).mpr (.inl rfl)
    simp only [TerminalStreams.subscribe, update_self]
    exact ⟨fun _ => ⟨hin, fun _ => rfl⟩, hsound.kept, hsound.whole⟩
  · have hsound := h.sound other
    rw [hothers other hother]
    have hin : other ∈ (s.streams.subscribe id).1.subscribed ↔ other ∈ s.streams.subscribed := by
      rw [mem_subscribe, or_iff_right hother]
    simp only [TerminalStreams.subscribe, update_of_ne hother]
    exact ⟨fun hne => ⟨hin.mpr (hsound.shown hne).1, (hsound.shown hne).2⟩, hsound.kept, hsound.whole⟩

/-- The last screen of a terminal goes, and its subscription with it. -/
theorem Inv.unsubscribe (h : Inv s) {screens : TerminalScreens}
    (hothers : ∀ other, other ≠ id → screens other = s.screens other) (hstack : screens id = []) :
    Inv ({ s with screens }.streaming (·.unsubscribe id)) := by
  refine Inv.send (@Inv.with_streams s h (s.streams.unsubscribe id).1 screens fun other => ?_) _
  by_cases hother : other = id
  · rw [hother, hstack]
    exact Sound.unseen _
  · have hsound := h.sound other
    rw [hothers other hother]
    have hin : other ∈ s.streams.subscribed → other ∈ (s.streams.unsubscribe id).1.subscribed :=
      fun hin => mem_filter.mpr ⟨hin, by simpa using hother⟩
    simp only [TerminalStreams.unsubscribe, update_of_ne hother]
    exact ⟨fun hne => ⟨hin (hsound.shown hne).1, (hsound.shown hne).2⟩, hsound.kept, hsound.whole⟩

/-- A request for what was missed leaves the offsets what they are. -/
theorem resync_keeps (id : String) :
    (streams.resync id).1.subscribed = streams.subscribed
      ∧ (streams.resync id).1.streamOffset = streams.streamOffset
      ∧ ∀ other, streams.awaitingSeed other = true → (streams.resync id).1.awaitingSeed other = true := by
  rw [TerminalStreams.resync]
  split_ifs
  · exact ⟨rfl, rfl, fun _ h => h⟩
  · refine ⟨rfl, rfl, fun other h => ?_⟩
    by_cases hother : other = id
    · rw [hother]
      exact update_self ..
    · rw [← h]
      exact update_of_ne hother ..

theorem Inv.resync (h : Inv s) (id : String) : Inv (s.streaming (·.resync id)) := by
  refine Inv.send (@Inv.with_streams s h (s.streams.resync id).1 s.screens fun other => ?_) _
  obtain ⟨hsubscribed, hoffset, hawaiting⟩ := resync_keeps s.streams id
  have hsound := h.sound other
  rw [hsubscribed, hoffset]
  refine ⟨fun hne => ⟨(hsound.shown hne).1, fun hnone => hawaiting other ?_⟩, hsound.kept, hsound.whole⟩
  exact (hsound.shown hne).2 hnone

/-- One request after the other, every terminal that is subscribed awaits a seed. -/
theorem resyncs_awaits (ids : List String) :
    (streams.resyncs ids).1.subscribed = streams.subscribed
      ∧ (streams.resyncs ids).1.streamOffset = streams.streamOffset
      ∧ ∀ id ∈ streams.subscribed, id ∈ ids ∨ streams.awaitingSeed id = true →
        (streams.resyncs ids).1.awaitingSeed id = true := by
  induction ids using List.reverseRecOn with
  | nil =>
    refine ⟨rfl, rfl, fun id _ h => ?_⟩
    rcases h with hin | hawaiting
    · exact absurd hin not_mem_nil
    · exact hawaiting
  | append_singleton ids last ih =>
    obtain ⟨hsubscribed, hoffset, hawaiting⟩ := ih
    have hlast : (streams.resyncs (ids ++ [last])).1 = ((streams.resyncs ids).1.resync last).1 := by
      rw [TerminalStreams.resyncs, foldl_append]
      rfl
    obtain ⟨hsubscribed', hoffset', hkeeps⟩ := resync_keeps (streams.resyncs ids).1 last
    rw [hlast, hsubscribed', hoffset']
    refine ⟨hsubscribed, hoffset, fun id hin h => ?_⟩
    by_cases hid : id = last
    · rw [hid, TerminalStreams.resync]
      split_ifs with hcond
      · rcases hcond with hno | hyes
        · rw [hsubscribed, ← hid] at hno
          exact absurd hin hno
        · exact hyes
      · exact update_self ..
    · apply hkeeps
      apply hawaiting id hin
      rcases h with hin | h
      · rcases mem_append.mp hin with hin | hin
        · exact .inl hin
        · exact absurd (mem_singleton.mp hin) hid
      · exact .inr h

theorem Inv.resumeAll (h : Inv s) : Inv (s.streaming TerminalStreams.resumeAll) := by
  refine Inv.send (@Inv.with_streams s h s.streams.resumeAll.1 s.screens fun id => ?_) _
  obtain ⟨hsubscribed, hoffset, hawaiting⟩ :=
    resyncs_awaits { s.streams with awaitingSeed := fun _ => false } s.streams.subscribed
  have hsound := h.sound id
  rw [TerminalStreams.resumeAll, hsubscribed, hoffset]
  refine ⟨fun hne => ⟨(hsound.shown hne).1, fun _ => ?_⟩, hsound.kept, hsound.whole⟩
  exact hawaiting id (hsound.shown hne).1 (.inl (hsound.shown hne).1)

/-- A seed arrives. -/
theorem Inv.seeded (h : Inv s) {seed : ℕ} (hseed : Slice (s.emitted id) seed [] seed) :
    Inv { s with
      streams := s.streams.seeded id (some seed)
      screens := s.screens.hand id fun screen => { screen with seed := some seed, text := [] } } := by
  refine @Inv.with_streams s h _ _ fun other => ?_
  by_cases hother : other = id
  · subst hother
    simp only [TerminalStreams.seeded, TerminalScreens.hand, update_self]
    exact (h.sound other).seeded hseed
  · simp only [TerminalStreams.seeded, TerminalScreens.hand, update_of_ne hother]
    exact h.sound other

/-- A chunk arrives and applies: it starts where the phone's offset stands, or no screen shows
its terminal. -/
theorem Inv.applied (h : Inv s) {stop : ℕ} {data : Str}
    (hdata : s.screens id = [] ∨ ∃ known, s.streams.streamOffset id = some known
      ∧ Slice (s.emitted id) known data stop) :
    Inv { s with
      streams := s.streams.apply id (some stop)
      screens := s.screens.hand id fun screen => { screen with text := screen.text ++ data } } := by
  refine @Inv.with_streams s h _ _ fun other => ?_
  by_cases hother : other = id
  · subst hother
    simp only [TerminalStreams.apply, TerminalScreens.hand, update_self]
    rcases hdata with hnone | ⟨known, hknown, hslice⟩
    · rw [hnone, handed_nil]
      exact Sound.unseen _
    · have hsound := h.sound other
      rw [hknown] at hsound
      exact hsound.applied hslice
  · simp only [TerminalStreams.apply, TerminalScreens.hand, update_of_ne hother]
    exact h.sound other

/-- What a chunk that is accepted is to the phone's offset. -/
inductive Accepted (id : String) (data : Str) (off : ℕ) (streams : TerminalStreams) :
    TerminalStreams × List Wire × Bool → Prop
  | dropped : Accepted id data off streams (streams, [], false)
  | asked : Accepted id data off streams ((streams.resync id).1, (streams.resync id).2, false)
  | unknown (hawaiting : streams.awaitingSeed id = false) (hnone : streams.streamOffset id = none) :
    Accepted id data off streams (streams.apply id (some off), [], true)
  | meets {known : ℕ} (hknown : streams.streamOffset id = some known)
    (hoff : off = known + utf8Size data) :
    Accepted id data off streams (streams.apply id (some off), [], true)

theorem accept_cases (id : String) (data : Str) (off : ℕ) (streams : TerminalStreams) :
    Accepted id data off streams (streams.accept id data (some off)) := by
  unfold TerminalStreams.accept
  by_cases hawaiting : streams.awaitingSeed id = true
  · rw [if_pos hawaiting]
    exact .dropped
  · rw [if_neg hawaiting]
    cases hknown : streams.streamOffset id with
    | none => exact .unknown (by simpa using hawaiting) hknown
    | some known =>
      simp only
      split_ifs with hold hmeets
      · exact .dropped
      · exact .asked
      · exact .meets hknown (by simpa using hmeets)

theorem Inv.dispatch (h : Inv s) {frame : Frame} (hframe : frame.holds s.emitted) :
    Inv (s.dispatch frame) := by
  cases frame with
  | seed id data off reset =>
    obtain ⟨seed, rfl, hseed⟩ := hframe
    exact h.seeded hseed
  | output id data off =>
    obtain ⟨start, stop, rfl, hslice⟩ := hframe
    rw [State.dispatch]
    rcases haccept : s.streams.accept id data (some stop) with ⟨streams, sent, accepted⟩
    have hcases := accept_cases id data stop s.streams
    rw [haccept] at hcases
    cases hcases with
    | dropped => exact h.send []
    | asked => exact h.resync id
    | unknown hawaiting hnone =>
      -- a screen would await a seed
      refine (@Inv.applied s id h stop data (.inl ?_)).send []
      by_contra hne
      have hawaits := ((h.sound id).shown hne).2 hnone
      rw [hawaiting] at hawaits
      exact nomatch hawaits
    | meets hknown hoff =>
      rename_i known
      refine (@Inv.applied s id h stop data (.inr ⟨known, hknown, ?_⟩)).send []
      have hlength := hslice.length
      have hstart : start = known := by
        rw [utf8Size] at hoff
        omega
      rw [← hstart]
      exact hslice

end

/-! ## The screens -/

/-- A screen closes: the last of its terminal, the one on top, or one below it. -/
inductive Closes (screens : TerminalScreens) (id : String) : TerminalScreens × Closed → Prop
  | last {screens' : TerminalScreens} (hothers : ∀ other, other ≠ id → screens' other = screens other)
    (hstack : screens' id = []) : Closes screens id (screens', .last)
  | revealed {screens' : TerminalScreens} (hothers : ∀ other, other ≠ id → screens' other = screens other)
    (hstack : ∀ screen ∈ screens' id, screen ∈ screens id) : Closes screens id (screens', .revealed)
  | covered {screens' : TerminalScreens} (hothers : ∀ other, other ≠ id → screens' other = screens other)
    (hstack : ∀ screen ∈ screens' id, screen ∈ screens id)
    (hlast : (screens' id).getLast? = (screens id).getLast?) : Closes screens id (screens', .covered)

theorem getLast_eraseIdx {stack : List Screen} {i : ℕ} (h : i + 1 < stack.length) :
    (stack.eraseIdx i).getLast? = stack.getLast? := by
  have hne : stack ≠ [] := ne_nil_of_length_pos (by omega)
  rw [eraseIdx_eq_take_drop_succ, getLast?_append, getLast?_drop, if_neg (by omega),
    getLast?_eq_some_getLast hne, some_or]

theorem close_cases (screens : TerminalScreens) (id : String) (key : ℕ) :
    Closes screens id (screens.close id key) := by
  rw [TerminalScreens.close]
  simp only
  split_ifs with hnone hmissing hleft htop
  · exact .last (fun _ _ => rfl) hnone
  · exact .covered (fun _ _ => rfl) (fun _ hin => hin) rfl
  · refine .last (fun other hother => update_of_ne hother ..) ?_
    rw [update_self]
    exact hleft
  · refine .revealed (fun other hother => update_of_ne hother ..) fun screen hin => ?_
    rw [update_self] at hin
    exact mem_of_mem_eraseIdx hin
  · refine .covered (fun other hother => update_of_ne hother ..) (fun screen hin => ?_) ?_
    · rw [update_self] at hin
      exact mem_of_mem_eraseIdx hin
    · rw [update_self]
      apply getLast_eraseIdx
      have hle := @findIdx_le_length _ (fun screen : Screen => decide (screen.key = key)) (screens id)
      omega

/-! ## Every run -/

section
variable {s s' : State}

theorem Inv.push (h : Inv s) (id : String) (text : Str) : Inv { s with
    rings := (ring_push s.rings id text).1
    emitted := Function.update s.emitted id (s.emitted id ++ text)
    teeing := s.teeing ++ [(id, text, (ring_push s.rings id text).2)] } := by
  have hgrows : Grows s.emitted (Function.update s.emitted id (s.emitted id ++ text)) := by
    intro other
    by_cases hother : other = id
    · rw [hother, update_self]
      exact ⟨text, rfl⟩
    · rw [update_of_ne hother]
      exact ⟨[], (append_nil _).symm⟩
  have htotal : ((s.rings id).getD {}).total + (as_bytes text).length
      = (as_bytes (s.emitted id ++ text)).length := by
    rw [h.rings id, as_bytes_append, length_append]
  refine ⟨fun other => ?_, fun chunk hin => ?_, fun c hc frame hin => (h.frames c hc frame hin).grows hgrows,
    fun other => ?_⟩
  · change (((ring_push s.rings id text).1 other).getD {}).total
      = (as_bytes (Function.update s.emitted id (s.emitted id ++ text) other)).length
    by_cases hother : other = id
    · rw [hother, ring_push_self, getD_some, Ring.push_total, update_self]
      exact htotal
    · rw [ring_push_other _ hother, update_of_ne hother]
      exact h.rings other
  · rcases mem_append.mp hin with hin | hin
    · obtain ⟨start, hslice⟩ := h.teeing chunk hin
      exact ⟨start, Slice.grows hgrows hslice⟩
    · rw [mem_singleton.mp hin]
      refine ⟨(as_bytes (s.emitted id)).length, ?_⟩
      simp only [update_self]
      rw [ring_push_off, htotal]
      exact Slice.added _ _
  · obtain ⟨more, hmore⟩ := hgrows other
    simp only [hmore]
    exact (h.sound other).grow more

/-- The connection changes, and what is under way on it holds of the streams. -/
theorem Inv.with_connection (h : Inv s) {connection : Option Connection} {teeing : List (String × Str × ℕ)}
    (hteeing : ∀ chunk ∈ teeing, chunk ∈ s.teeing)
    (hframes : ∀ c, connection = some c → ∀ frame ∈ c.frames, frame.holds s.emitted) :
    Inv { s with teeing, connection } :=
  ⟨h.rings, fun chunk hin => h.teeing chunk (hteeing chunk hin), hframes, h.sound⟩

theorem Inv.tee (h : Inv s) {chunk : ℕ} {id : String} {text : Str} {off : ℕ}
    (hchunk : s.teeing[chunk]? = some (id, text, off)) (kept : Bool) : Inv { s with
    teeing := s.teeing.eraseIdx chunk
    connection := s.connection.map fun c =>
      if c.subs id && kept then { c with queue := c.queue ++ [.output id text (some off)] } else c } := by
  refine h.with_connection (fun _ hin => mem_of_mem_eraseIdx hin) fun c hc frame hin => ?_
  obtain ⟨c', hc', rfl⟩ := map_eq_some_iff.mp hc
  split_ifs at hin
  · simp only [Connection.frames, append_assoc] at hin
    rcases mem_append.mp hin with hin | hin
    · exact h.frames c' hc' frame (mem_append_left _ hin)
    · rcases mem_append.mp hin with hin | hin
      · rw [mem_singleton.mp hin]
        obtain ⟨start, hslice⟩ := h.teeing _ (mem_of_getElem? hchunk)
        exact ⟨start, off, rfl, hslice⟩
      · exact h.frames c' hc' frame (mem_append_right _ hin)
  · exact h.frames c' hc' frame hin

theorem Inv.step {a : Action} (h : Inv s) (hstep : step s a = some s') : Inv s' := by
  cases a with
  | push id text =>
    cases hstep
    exact h.push id text
  | tee chunk kept =>
    rw [Lpm.Phone.step, map_eq_some_iff] at hstep
    obtain ⟨⟨id, text, off⟩, hchunk, rfl⟩ := hstep
    exact h.tee hchunk kept
  | write =>
    rw [Lpm.Phone.step] at hstep
    split at hstep
    next hc =>
      cases hstep
      refine h.with_connection (fun _ hin => hin) fun c hc' frame hin => ?_
      cases hc'
      -- the frame is still on its way, one queue further
      simp only [Connection.frames, ← append_assoc] at hin
      apply h.frames _ hc
      simp only [Connection.frames, mem_append, mem_cons] at hin ⊢
      tauto
    · exact nomatch hstep
  | read =>
    rw [Lpm.Phone.step] at hstep
    split at hstep
    next hc =>
      cases hstep
      refine h.with_connection (fun _ hin => hin) fun c hc' frame hin => ?_
      cases hc'
      exact h.frames _ hc frame hin
    next hc =>
      cases hstep
      refine h.with_connection (fun _ hin => hin) fun c hc' frame hin => ?_
      cases hc'
      exact h.frames _ hc frame hin
    · exact nomatch hstep
  | answer =>
    rw [Lpm.Phone.step] at hstep
    split at hstep
    next subs queue id start up down hc =>
      cases hstep
      refine h.with_connection (fun _ hin => hin) fun c hc' frame hin => ?_
      cases hc'
      simp only [Connection.frames, ← append_assoc] at hin
      -- what is new is the seed, and it holds what the ring does
      rcases mem_append.mp hin with hin | hin
      · exact h.frames _ hc frame hin
      · rw [mem_singleton.mp hin]
        exact seed_frame_holds (h.rings id) start
    · exact nomatch hstep
  | deliver =>
    rw [Lpm.Phone.step] at hstep
    split at hstep
    next subs queue seeding up frame down hc =>
      cases hstep
      have hall : ∀ f ∈ queue ++ frame :: down, f.holds s.emitted := h.frames _ hc
      have hrest : Inv { s with connection := some { subs, queue, seeding, up, down } } := by
        refine h.with_connection (fun _ hin => hin) fun c hc' f hin => ?_
        cases hc'
        apply hall
        rcases mem_append.mp hin with hin | hin
        · exact mem_append_left _ hin
        · exact mem_append_right _ (mem_cons_of_mem _ hin)
      exact hrest.dispatch (hall frame (mem_append_right _ (mem_cons_self ..)))
    · exact nomatch hstep
  | openTerminalScreen id key =>
    cases hstep
    refine h.subscribe (fun other hother => update_of_ne hother ..) fun screen hin => ?_
    rw [TerminalScreens.open, update_self] at hin
    rcases mem_append.mp hin with hin | hin
    · exact .inl hin
    · rw [mem_singleton.mp hin]
      exact .inr rfl
  | closeTerminalScreen id key =>
    rw [Lpm.Phone.step] at hstep
    rcases hclose : s.screens.close id key with ⟨screens, closed⟩
    have hcases := close_cases s.screens id key
    rw [hclose] at hcases hstep
    -- the screen below, if there is one, is seeded again
    cases hcases with
    | last hothers hstack =>
      cases hstep
      exact h.unsubscribe hothers hstack
    | revealed hothers hstack =>
      cases hstep
      exact h.subscribe hothers fun screen hin => .inl (hstack screen hin)
    | covered hothers hstack hlast =>
      cases hstep
      refine @Inv.with_streams s h s.streams screens fun other => ?_
      by_cases hother : other = id
      · subst hother
        exact (h.sound other).less hstack hlast
      · rw [hothers other hother]
        exact h.sound other
  | reseed id =>
    cases hstep
    exact @Inv.subscribe s id h s.screens (fun _ _ => rfl) fun _ hin => .inl hin
  | resync id =>
    cases hstep
    exact h.resync id
  | lost =>
    cases hstep
    exact h.with_connection (fun _ hin => hin) fun c hc => nomatch hc
  | ready =>
    cases hstep
    have hfresh : Inv { s with connection := some .fresh } := by
      refine h.with_connection (fun _ hin => hin) fun c hc frame hin => ?_
      cases hc
      exact absurd hin not_mem_nil
    exact hfresh.resumeAll

end

/-- Whatever is dropped, asked again, seeded and reconnected in whatever order, the text a
screen was handed since its last seed is the stream between the two offsets. -/
theorem stream_whole {s : State} (h : Reachable phone s) : Whole s := by
  have hinv : Inv s := by
    refine Reachable.invariant ?_ ?_ h
    · rintro s rfl
      refine ⟨fun _ => rfl, fun _ hin => absurd hin not_mem_nil, fun c hc => ?_,
        fun _ => Sound.unseen _⟩
      exact nomatch hc
    · intro s a s' hs hstep
      exact hs.step hstep
  intro id screen seed known hscreen hseed hknown
  have hslice := (hinv.sound id).whole screen seed known hscreen hseed hknown
  have hlength := hslice.length
  obtain ⟨hle, hbytes⟩ := hslice.bytes
  exact ⟨by omega, hle, hbytes⟩

/-! ## A chunk that is dropped -/

def run (s : State) (actions : List Action) : Option State := actions.foldlM step s

theorem reachable_run {s s' : State} (h : Reachable phone s) {actions : List Action}
    (hrun : run s actions = some s') : Reachable phone s' :=
  h.run (fun _ _ _ hstep => hstep) hrun

/-- A chunk that goes from the terminal to the phone, and one that is dropped on the way. -/
def arrives (text : String) : List Action := [.push "t1" text.toList, .tee 0 true, .write, .deliver]
def is_dropped (text : String) : List Action := [.push "t1" text.toList, .tee 0 false]

/-- A request of the phone that is answered. -/
def answered : List Action := [.read, .answer, .deliver]

/-- The chunk behind the gap is not handed on but asks for the gap, and after the seed that
answers, the stream goes on from there. -/
theorem stream_whole_gap : ∃ s, (∃ screen, s.screens.current "t1" = some screen ∧ screen.seed = some 6
    ∧ screen.text = "gh".toList) ∧ s.streams.streamOffset "t1" = some 8 ∧ Whole s := by
  have hrun : ∃ s, run initial ([.ready, .openTerminalScreen "t1" 0] ++ answered ++ arrives "ab"
      ++ is_dropped "cd" ++ arrives "ef" ++ answered ++ arrives "gh") = some s
      ∧ (∃ screen, s.screens.current "t1" = some screen ∧ screen.seed = some 6
        ∧ screen.text = "gh".toList) ∧ s.streams.streamOffset "t1" = some 8 :=
    ⟨_, rfl, ⟨_, rfl, rfl, rfl⟩, rfl⟩
  obtain ⟨s, hs, hscreen, hknown⟩ := hrun
  exact ⟨s, hscreen, hknown, stream_whole (reachable_run (.start rfl) hs)⟩

end Lpm.Phone
