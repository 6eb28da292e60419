/-
The repaint nudge of `peer.rs`: after a peer was seeded, a terminal grows by a row, and gets
its size back once the program in it has had time to notice.

The nudge reads the size and registers under a lock, grows the terminal outside it, and takes
the lock again to look whether the nudge still stands and to restore. A viewer over a peer
connection cancels the nudge under the lock and resizes after; phones and windows only resize.
A step is what one of them does in between, for one terminal, and any of them may go next.
-/
import Mathlib.Algebra.Order.Ring.Int
import Lpm.Lib.Transition

set_option autoImplicit false

open Transition

namespace Lpm.Peer

open Function

structure Size where
  cols : ℕ
  rows : ℕ
  deriving DecidableEq

def Size.grown (size : Size) : Size := { size with rows := size.rows + 1 }

/-- The thread of a nudge: the size it read, and whether it has grown the terminal. -/
structure Nudge where
  base : Size
  grew : Bool

/-- The last two are no part of the program: the size some viewer set last, and the token
that was the latest when one last cancelled. -/
structure State where
  size : Size
  /-- The token of the terminal's latest nudge while it still owes the restore. -/
  pending : Option ℕ
  next_nudge : ℕ
  /-- The nudges that are under way, by their tokens. -/
  nudges : ℕ → Option Nudge
  /-- The one that holds the lock, from finding the size it set to restoring its own. -/
  holder : Option ℕ
  /-- The sizes of viewers that have cancelled and not resized yet. -/
  viewers : List Size
  ended : Bool
  wanted : Size
  cancelled : ℕ

inductive Event where
  | register
  | grow (token : ℕ)
  | grow_fails (token : ℕ)
  | claim (token : ℕ)
  | restore (token : ℕ)
  | cancel (size : Size)
  | resize (size : Size)
  /-- A phone or a window resizes. -/
  | other (size : Size)
  | exit

namespace State

variable (s : State)

def remote_resize (size : Size) : State := if s.ended then s else { s with size }

variable (token : ℕ)

def take_nudge : State :=
  if s.pending = some token then { s with pending := none } else s

def finish : State := { s with nudges := update s.nudges token none }

/-- What the thread does that has slept, up to the resize. -/
def claim (nudge : Nudge) : State :=
  if s.pending = some token ∧ s.ended = false ∧ s.size = nudge.base.grown then
    { s.take_nudge token with holder := some token }
  else (s.take_nudge token).finish token

end State

inductive Step (s : State) : Event → State → Prop
  | register (hlock : s.holder = none) (hpending : s.pending = none)
    (hsize : s.size.cols ≠ 0 ∧ s.size.rows ≠ 0 ∧ s.size.rows + 1 < 2 ^ 16) :
    Step s .register
      { s with
        pending := some (s.next_nudge + 1)
        next_nudge := s.next_nudge + 1
        nudges := update s.nudges (s.next_nudge + 1) (some ⟨s.size, false⟩) }
  | grow {token : ℕ} {nudge : Nudge} (hnudge : s.nudges token = some nudge)
    (hgrew : nudge.grew = false) (halive : s.ended = false) :
    Step s (.grow token)
      { s with
        size := nudge.base.grown
        nudges := update s.nudges token (some { nudge with grew := true }) }
  | grow_fails {token : ℕ} {nudge : Nudge} (hnudge : s.nudges token = some nudge)
    (hgrew : nudge.grew = false) (hlock : s.holder = none) :
    Step s (.grow_fails token) ((s.take_nudge token).finish token)
  | claim {token : ℕ} {nudge : Nudge} (hnudge : s.nudges token = some nudge)
    (hgrew : nudge.grew = true) (hlock : s.holder = none) :
    Step s (.claim token) (s.claim token nudge)
  | restore {token : ℕ} {nudge : Nudge} (hnudge : s.nudges token = some nudge)
    (hlock : s.holder = some token) :
    Step s (.restore token) { (s.remote_resize nudge.base).finish token with holder := none }
  | cancel {size : Size} (hlock : s.holder = none) :
    Step s (.cancel size) { s with
      pending := none, viewers := size :: s.viewers, cancelled := s.next_nudge }
  | resize {size : Size} (hviewer : size ∈ s.viewers) :
    Step s (.resize size)
      { s.remote_resize size with viewers := s.viewers.erase size, wanted := size }
  | other {size : Size} : Step s (.other size) { s.remote_resize size with wanted := size }
  | exit : Step s .exit { s with ended := true }

def start (size : Size) : State :=
  ⟨size, none, 0, fun _ => none, none, [], false, size, 0⟩

def system : System State Event where
  init s := ∃ size, s = start size
  step := Step

/-- A nudge grows the terminal while it stands and its size is the one that was set last, or
while a viewer is about to resize anyway. Nobody sets another size than a nudge's own between
its look at the size and its restore. And nobody sets the very size that a nudge has grown
to: a phone or a window while that nudge stands, a viewer only if it was registered after the
last cancel. -/
def Fits (s : State) : Event → Prop
  | .grow token => s.viewers ≠ [] ∨
      s.pending = some token ∧ ∀ nudge, s.nudges token = some nudge → nudge.base = s.wanted
  | .resize size =>
    (∀ token nudge, s.holder = some token → s.nudges token = some nudge → nudge.base = size) ∧
      ∀ token nudge, s.cancelled < token → s.nudges token = some nudge → nudge.grew = true →
        size ≠ nudge.base.grown
  | .other size =>
    (∀ token nudge, s.holder = some token → s.nudges token = some nudge → nudge.base = size) ∧
      ∀ token nudge, s.pending = some token → s.nudges token = some nudge → nudge.grew = true →
        size ≠ nudge.base.grown
  | _ => True

/-- No nudge is pending, and nobody is between two steps of a restore or a resize. -/
structure State.Settled (s : State) : Prop where
  alive : s.ended = false
  pending : s.pending = none
  unlocked : s.holder = none
  viewers : s.viewers = []

/-! ## Invariant -/

structure State.Inv (s : State) : Prop where
  /-- What is about to be restored. -/
  held : ∀ token, s.holder = some token → s.pending = none ∧
    ∃ nudge, s.nudges token = some nudge ∧ nudge.grew = true ∧
      (s.viewers ≠ [] ∨ nudge.base = s.wanted)
  /-- What would be. -/
  owed : ∀ token nudge, s.pending = some token → s.nudges token = some nudge →
    nudge.grew = true → s.size = nudge.base.grown → s.viewers ≠ [] ∨ nudge.base = s.wanted
  due : s.size = s.wanted ∨ s.viewers ≠ [] ∨ s.holder ≠ none ∨
    ∃ token nudge, s.pending = some token ∧ s.nudges token = some nudge ∧ nudge.grew = true ∧
      s.size = nudge.base.grown
  /-- A cancel leaves no nudge standing that was registered before it. -/
  since : s.cancelled ≤ s.next_nudge ∧ ∀ token, s.pending = some token → s.cancelled < token

theorem inv_start (size : Size) : (start size).Inv where
  held _ h := nomatch h
  owed _ _ h := nomatch h
  due := Or.inl rfl
  since := ⟨Nat.le_refl 0, nofun⟩

section
variable {s s' : State} {token : ℕ} {nudge : Nudge} {size : Size}

theorem remote_resize_alive (h : s.ended = false) (size : Size) :
    s.remote_resize size = { s with size } := by
  rw [State.remote_resize, h]
  rfl

theorem nudge_of_update {nudges : ℕ → Option Nudge} {value : Option Nudge} {other : ℕ}
    (h : update nudges token value other = some nudge) :
    other = token ∧ value = some nudge ∨ other ≠ token ∧ nudges other = some nudge := by
  by_cases hother : other = token
  · rw [hother, update_self] at h
    exact Or.inl ⟨hother, h⟩
  · rw [update_of_ne hother] at h
    exact Or.inr ⟨hother, h⟩

/-- A nudge goes that is not to be restored. -/
theorem State.Inv.finish (h : s.Inv) (hheld : s.holder ≠ some token)
    (hpending : s.pending = some token → ∀ nudge, s.nudges token = some nudge →
      nudge.grew = true → s.size ≠ nudge.base.grown) : ((s.take_nudge token).finish token).Inv := by
  have heq : (s.take_nudge token).finish token = { s with
      pending := if s.pending = some token then none else s.pending
      nudges := update s.nudges token none } := by
    unfold State.finish State.take_nudge
    split_ifs with htoken
    · rfl
    · rfl
  rw [heq]
  refine ⟨fun other hholder => ?_, fun other nudge hother hnudge => ?_, ?_,
    h.since.1, fun other hother => ?_⟩
  · obtain ⟨hnone, nudge, hnudge, hrest⟩ := h.held other hholder
    refine ⟨by rw [hnone]; rfl, nudge, (update_of_ne ?_ _ _).trans hnudge, hrest⟩
    rintro rfl
    exact hheld hholder
  · obtain ⟨-, hnone⟩ | ⟨-, hnudge⟩ := nudge_of_update hnudge
    · exact nomatch hnone
    · split_ifs at hother
      exact h.owed other nudge hother hnudge
  · refine h.due.imp_right (Or.imp_right (Or.imp_right ?_))
    rintro ⟨other, nudge, hother, hnudge, hgrew, hsize⟩
    have hne : other ≠ token := fun he => hpending (he ▸ hother) nudge (he ▸ hnudge) hgrew hsize
    refine ⟨other, nudge, ?_, (update_of_ne hne _ _).trans hnudge, hgrew, hsize⟩
    rw [if_neg fun he => hne (Option.some.inj (hother.symm.trans he))]
    exact hother
  · split_ifs at hother
    exact h.since.2 other hother

/-- A viewer, a phone or a window sets the size. -/
theorem State.Inv.set (h : s.Inv) (halive : s.ended = false) (hfits : Fits s (.other size))
    (viewers : List Size) :
    { s.remote_resize size with viewers := viewers, wanted := size }.Inv := by
  rw [remote_resize_alive halive]
  refine ⟨fun token hholder => ?_, fun token nudge hpending hnudge hgrew hsize => ?_, Or.inl rfl,
    h.since⟩
  · obtain ⟨hpending, nudge, hnudge, hgrew, -⟩ := h.held token hholder
    exact ⟨hpending, nudge, hnudge, hgrew, Or.inr (hfits.1 token nudge hholder hnudge)⟩
  · exact absurd hsize (hfits.2 token nudge hpending hnudge hgrew)

theorem State.Inv.grow (h : s.Inv) (hnudge : s.nudges token = some nudge)
    (hgrew : nudge.grew = false) (hfits : Fits s (.grow token)) :
    { s with
      size := nudge.base.grown
      nudges := update s.nudges token (some { nudge with grew := true }) }.Inv := by
  refine ⟨fun other hholder => ?_, fun other nudge' hother hnudge' _ _ => ?_, ?_, h.since⟩
  · obtain ⟨hnone, held, hheld, hgrew', hrest⟩ := h.held other hholder
    refine ⟨hnone, held, (update_of_ne ?_ _ _).trans hheld, hgrew', hrest⟩
    -- the one that holds the lock has grown the terminal before
    rintro rfl
    rw [hnudge] at hheld
    rw [← Option.some.inj hheld, hgrew] at hgrew'
    exact nomatch hgrew'
  · rcases hfits with hviewers | ⟨htoken, hbase⟩
    · exact Or.inl hviewers
    · obtain ⟨-, heq⟩ | ⟨hne, -⟩ := nudge_of_update hnudge'
      · rw [← Option.some.inj heq]
        exact Or.inr (hbase nudge hnudge)
      · exact absurd (Option.some.inj (hother.symm.trans htoken)) hne
  · rcases hfits with hviewers | ⟨htoken, -⟩
    · exact Or.inr (Or.inl hviewers)
    · exact Or.inr (Or.inr (Or.inr ⟨token, _, htoken, update_self .., rfl, rfl⟩))

theorem State.Inv.step (h : s.Inv) {event : Event} (hfits : Fits s event)
    (hstep : Step s event s') (halive : s.ended = false) : s'.Inv := by
  cases hstep with
  | register hlock hpending hsize =>
    refine ⟨fun other hholder => ?_, fun other nudge hother hnudge hgrew => ?_, ?_,
      Nat.le_succ_of_le h.since.1, fun other hother => ?_⟩
    · rw [hlock] at hholder
      exact nomatch hholder
    · obtain ⟨-, heq⟩ | ⟨hne, -⟩ := nudge_of_update hnudge
      · rw [← Option.some.inj heq] at hgrew
        exact nomatch hgrew
      · exact absurd (Option.some.inj hother).symm hne
    · rcases h.due with hsize | hviewers | hholder | ⟨_, _, hother, -⟩
      · exact Or.inl hsize
      · exact Or.inr (Or.inl hviewers)
      · exact absurd hlock hholder
      · rw [hpending] at hother
        exact nomatch hother
    · rw [← Option.some.inj hother]
      exact Nat.lt_succ_of_le h.since.1
  | grow hnudge hgrew halive => exact h.grow hnudge hgrew hfits
  | grow_fails hnudge hgrew hlock =>
    refine h.finish (by rw [hlock]; exact nofun) fun _ other hother => ?_
    rw [hnudge] at hother
    rw [← Option.some.inj hother, hgrew]
    exact nofun
  | @claim token nudge hnudge hgrew hlock =>
    rw [State.claim]
    split_ifs with hstands
    · have howed := h.owed token nudge hstands.1 hnudge hgrew hstands.2.2
      rw [State.take_nudge, if_pos hstands.1]
      refine ⟨fun other hholder => ?_, nofun, Or.inr (Or.inr (Or.inl nofun)), h.since.1, nofun⟩
      rw [← Option.some.inj hholder]
      exact ⟨rfl, nudge, hnudge, hgrew, howed⟩
    · refine h.finish (by rw [hlock]; exact nofun) fun hpending other hother _ hsize => ?_
      rw [hnudge] at hother
      rw [← Option.some.inj hother] at hsize
      exact hstands ⟨hpending, halive, hsize⟩
  | @restore token nudge hnudge hlock =>
    obtain ⟨hpending, held, hheld, -, hrest⟩ := h.held token hlock
    rw [hnudge] at hheld
    rw [← Option.some.inj hheld] at hrest
    rw [remote_resize_alive halive]
    refine ⟨nofun, fun other _ hother => ?_, ?_, h.since⟩
    · exact nomatch hpending.symm.trans hother
    · rcases hrest with hviewers | hbase
      · exact Or.inr (Or.inl hviewers)
      · exact Or.inl hbase
  | cancel hlock =>
    refine ⟨fun token hholder => ?_, nofun, Or.inr (Or.inl (List.cons_ne_nil _ _)),
      Nat.le_refl _, nofun⟩
    rw [hlock] at hholder
    exact nomatch hholder
  | resize hviewer =>
    -- what the viewer's own cancel retired is no concern of it
    refine h.set halive ⟨hfits.1, fun token nudge hpending => ?_⟩ _
    exact hfits.2 token nudge (h.since.2 token hpending)
  | @other size =>
    have hset := h.set halive hfits s.viewers
    rw [remote_resize_alive halive] at hset ⊢
    exact hset
  | exit => exact ⟨h.held, h.owed, h.due, h.since⟩

end

/-! ## Runs -/

/-- No step brings an ended terminal back. -/
theorem alive_before {s s' : State} {event : Event} (hstep : Step s event s')
    (h : s'.ended = false) : s.ended = false := by
  have hresize : ∀ size, (s.remote_resize size).ended = s.ended := by
    intro size
    unfold State.remote_resize
    split <;> rfl
  have htake : ∀ token, (s.take_nudge token).ended = s.ended := by
    intro token
    unfold State.take_nudge
    split <;> rfl
  cases hstep with
  | register => exact h
  | grow => exact h
  | grow_fails => exact (htake _).symm.trans h
  | claim =>
    rw [State.claim] at h
    split at h
    · exact (htake _).symm.trans h
    · exact (htake _).symm.trans h
  | restore | resize | other => exact (hresize _).symm.trans h
  | cancel => exact h
  | exit => exact nomatch h

theorem inv_of_reachable {s : State} (h : Reachable (system.when Fits) s) :
    s.ended = false → s.Inv := by
  refine h.invariant (P := fun s => s.ended = false → s.Inv) ?_ fun s event s' ih hstep halive => ?_
  · rintro s ⟨size, rfl⟩ -
    exact inv_start size
  · have hbefore := alive_before hstep.2 halive
    exact (ih hbefore).step hstep.1 hstep.2 hbefore

end Lpm.Peer
