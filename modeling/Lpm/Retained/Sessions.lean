/-
The terminal sessions of peers that outlive their view (`retainedSessions.ts`): each is kept
until a pane takes it back, or until a timer, a snapshot without its peer or the cap gives it
up.

A timer's callback looks its session up by name when it fires, so a timer left armed would
give up a later retention of the same terminal. What holds in every state is that the timers
armed are those of the sessions retained, no others, and that each retention is in one place:
retained, handed back or disposed (`Sound`). A terminal retained twice keeps the first
retention.
-/
import Lpm.Lib.Keyed
import Lpm.Lib.Transition
import Lpm.Panes.PersistedTree

set_option autoImplicit false

open Transition

namespace Lpm.Retained

open List Option

abbrev Str := List Char

def MAX_RETAINED : ℕ := 32

/-! ## The state -/

structure PeerConnectivity where
  slug : Str
  connected : Bool

/-- A timeout that is armed. Every timeout's callback releases a session, by its name. -/
structure Timer where
  handle : ℕ
  terminalId : Str
  deriving DecidableEq

/-- A dispose is told by the call of `retainPeerSession` it was given to. -/
structure RetainedSession where
  terminalId : Str
  slug : Str
  dispose : ℕ
  hard : ℕ
  reclaim : Option ℕ
  deriving DecidableEq

structure State where
  retained : List RetainedSession := []
  peers : List PeerConnectivity := []
  timers : List Timer := []
  /-- How many timeouts were set. -/
  handles : ℕ := 0
  /-- How many times a session was offered. -/
  calls : ℕ := 0
  /-- The calls that began a retention. -/
  kept : List ℕ := []
  /-- The disposes called, and the retentions handed back. -/
  disposed : List ℕ := []
  reclaimed : List ℕ := []

def State.get (s : State) (terminalId : Str) : Option RetainedSession :=
  Keyed.get RetainedSession.terminalId s.retained terminalId

/-- `peers.get(slug)`. -/
def State.connected (s : State) (slug : Str) : Option Bool :=
  (Keyed.get PeerConnectivity.slug s.peers slug).map PeerConnectivity.connected

/-! ## The source's functions -/

variable (terminalId : Str) (s : State)

def setTimeout : State :=
  { s with timers := s.timers ++ [⟨s.handles, terminalId⟩], handles := s.handles + 1 }

def clearTimeout (handle : ℕ) (s : State) : State :=
  { s with timers := s.timers.filter fun t => t.handle ≠ handle }

variable (entry : RetainedSession)

def clearReclaim (s : State) : State :=
  match entry.reclaim with
  | none => s
  | some handle => clearTimeout handle s

def clearTimers (s : State) : State := clearReclaim entry (clearTimeout entry.hard s)

/-- `retained.delete(terminalId)`. -/
def delete : State :=
  { s with retained := s.retained.filter fun e => e.terminalId ≠ terminalId }

def release : State :=
  match s.get terminalId with
  | none => s
  | some entry =>
    let s := delete terminalId (clearTimers entry s)
    { s with disposed := s.disposed ++ [entry.dispose] }

/-- An entry's own change, where it stands. -/
def setReclaim (reclaim : Option ℕ) (s : State) : State :=
  { s with retained := s.retained.map fun e => if e.terminalId = terminalId then { e with reclaim } else e }

def armReclaim : State :=
  match s.get terminalId with
  | none => s
  | some entry =>
    if entry.reclaim.isSome then s else setReclaim terminalId (some s.handles) (setTimeout terminalId s)

def disarmReclaim : State :=
  match s.get terminalId with
  | none => s
  | some entry => if entry.reclaim.isNone then s else setReclaim terminalId none (clearReclaim entry s)

/-- The oldest session whose peer is reachable, or the oldest. -/
def victim : Option Str :=
  ((s.retained.find? fun e => e.reclaim.isSome).or s.retained.head?).map RetainedSession.terminalId

variable {terminalId : Str} {s : State}

theorem get_mem {entry : RetainedSession} (h : s.get terminalId = some entry) :
    entry ∈ s.retained ∧ entry.terminalId = terminalId :=
  ⟨Keyed.mem_of_get h, Keyed.get_key h⟩

@[simp] theorem clearTimers_retained (entry : RetainedSession) (s : State) : (clearTimers entry s).retained = s.retained := by
  rw [clearTimers, clearReclaim]
  cases entry.reclaim <;> rfl

/-- Clearing timers changes nothing else. -/
theorem clearTimers_rest (entry : RetainedSession) (s : State) :
    clearTimers entry s = { s with timers := (clearTimers entry s).timers } := by
  rw [clearTimers, clearReclaim]
  cases entry.reclaim with
  | none => rfl
  | some handle => rfl

theorem release_none (h : s.get terminalId = none) : release terminalId s = s := by
  rw [release, h]

theorem release_some {entry : RetainedSession} (h : s.get terminalId = some entry) :
    release terminalId s = { delete terminalId (clearTimers entry s) with
      disposed := (delete terminalId (clearTimers entry s)).disposed ++ [entry.dispose] } := by
  rw [release, h]

theorem release_retained (terminalId : Str) (s : State) :
    (release terminalId s).retained = s.retained.filter fun e => e.terminalId ≠ terminalId := by
  cases hget : s.get terminalId with
  | none =>
    rw [release_none hget]
    have hnot := Keyed.get_eq_none_iff.mp hget
    rw [filter_eq_self.mpr]
    intro e he
    exact decide_eq_true fun heq => hnot (heq ▸ List.mem_map_of_mem he)
  | some entry =>
    rw [release_some hget]
    change (clearTimers entry s).retained.filter _ = _
    rw [clearTimers_retained]

theorem release_shorter (h : terminalId ∈ s.retained.map RetainedSession.terminalId) :
    (release terminalId s).retained.length < s.retained.length := by
  obtain ⟨e, he, hid⟩ := List.mem_map.mp h
  rw [release_retained]
  exact length_filter_lt_length_iff_exists.mpr ⟨e, he, by simpa using hid⟩

theorem victim_mem (h : victim s = some terminalId) :
    terminalId ∈ s.retained.map RetainedSession.terminalId := by
  obtain ⟨e, he, rfl⟩ := map_eq_some_iff.mp h
  refine List.mem_map_of_mem ?_
  rcases or_eq_some_iff.mp he with hfind | ⟨-, hhead⟩
  · exact mem_of_find?_eq_some hfind
  · exact mem_of_head? hhead

def enforceCap (s : State) : State :=
  if s.retained.length > MAX_RETAINED then
    match _h : victim s with
    | none => s
    | some terminalId => enforceCap (release terminalId s)
  else s
termination_by s.retained.length
decreasing_by exact release_shorter (victim_mem _h)

/-- One turn of the loop over a copy of the sessions retained. -/
def publishTo (s : State) (entry : RetainedSession) : State :=
  match s.connected entry.slug with
  | none => release entry.terminalId s
  | some true => armReclaim entry.terminalId s
  | some false => disarmReclaim entry.terminalId s

def publishPeerSnapshot (snapshot : List PeerConnectivity) (s : State) : State :=
  s.retained.foldl publishTo { s with peers := Keyed.put_all PeerConnectivity.slug [] snapshot }

/-- The slug of a terminal's name on a peer. -/
def peerSlugOf (terminalId : Str) : Str := (terminalId.drop 5).take 8

/-- What is returned, and what is left. Each call is given a dispose of its own. -/
def retainPeerSession (terminalId : Str) (s : State) : Bool × State :=
  let call := s.calls
  let s := { s with calls := call + 1 }
  if (s.get terminalId).isSome then (true, s)
  else if !Panes.isPeerName terminalId then (false, s)
  else
    let slug := peerSlugOf terminalId
    match s.connected slug with
    | none => (false, s)
    | some connected =>
      let entry : RetainedSession := { terminalId, slug, dispose := call, hard := s.handles, reclaim := none }
      let s := setTimeout terminalId s
      let s := { s with retained := s.retained ++ [entry], kept := s.kept ++ [call] }
      let s := if connected then armReclaim terminalId s else s
      (true, enforceCap s)

def reclaimPeerSession (terminalId : Str) (s : State) : State :=
  match s.get terminalId with
  | none => s
  | some entry =>
    let s := delete terminalId (clearTimers entry s)
    { s with reclaimed := s.reclaimed ++ [entry.dispose] }

/-- A timer that is due is no longer armed. -/
def fire (t : Timer) (s : State) : State := release t.terminalId (clearTimeout t.handle s)

inductive Event where
  | retain (terminalId : Str)
  | reclaim (terminalId : Str)
  | publish (snapshot : List PeerConnectivity)
  | fire (t : Timer)

/-- Any timer that is armed may fire at any time. -/
def sessions : System State Event where
  init s := s = {}
  step s e s' :=
    match e with
    | .retain terminalId => s' = (retainPeerSession terminalId s).2
    | .reclaim terminalId => s' = reclaimPeerSession terminalId s
    | .publish snapshot => s' = publishPeerSnapshot snapshot s
    | .fire t => t ∈ s.timers ∧ s' = fire t s

/-! ## What holds in every state -/

/-- The timers of a session retained. -/
def RetainedSession.timers (e : RetainedSession) : List Timer :=
  ⟨e.hard, e.terminalId⟩ :: (e.reclaim.map fun handle => ⟨handle, e.terminalId⟩).toList

/-- In how many places the retention that a call began is: retained, disposed or handed back. -/
def State.places (s : State) (call : ℕ) : ℕ :=
  (s.retained.map RetainedSession.dispose).count call + s.disposed.count call + s.reclaimed.count call

structure Sound (s : State) : Prop where
  names : (s.retained.map RetainedSession.terminalId).Nodup
  handles : (s.timers.map Timer.handle).Nodup
  fresh : ∀ t ∈ s.timers, t.handle < s.handles
  armed : ∀ t, t ∈ s.timers ↔ ∃ e ∈ s.retained, t ∈ e.timers
  apart : ∀ e ∈ s.retained, e.reclaim ≠ some e.hard
  once : ∀ call, s.places call = if call ∈ s.kept then 1 else 0
  calls : ∀ call ∈ s.kept, call < s.calls

section
variable {s : State} {e e' entry : RetainedSession} {t : Timer} {terminalId : Str} {call : ℕ}

theorem mem_timers : t ∈ e.timers ↔ t.terminalId = e.terminalId ∧ (t.handle = e.hard ∨ e.reclaim = some t.handle) := by
  obtain ⟨handle, name⟩ := t
  rw [RetainedSession.timers, mem_cons, mem_toList, map_eq_some_iff]
  simp only [Timer.mk.injEq]
  constructor
  · rintro (⟨rfl, rfl⟩ | ⟨h, hre, rfl, rfl⟩)
    · exact ⟨rfl, .inl rfl⟩
    · exact ⟨rfl, .inr hre⟩
  · rintro ⟨rfl, rfl | hre⟩
    · exact .inl ⟨rfl, rfl⟩
    · exact .inr ⟨handle, hre, rfl, rfl⟩

theorem clearTimers_timers (entry : RetainedSession) (s : State) :
    (clearTimers entry s).timers = s.timers.filter fun t => t.handle ≠ entry.hard ∧ entry.reclaim ≠ some t.handle := by
  rw [clearTimers, clearReclaim]
  cases hre : entry.reclaim with
  | none =>
    refine filter_congr fun t _ => ?_
    simp
  | some handle =>
    change ((s.timers.filter _).filter _) = _
    rw [List.filter_filter]
    refine filter_congr fun t _ => ?_
    simp [and_comm, eq_comm]

variable (h : Sound s)
include h

theorem Sound.same_name (he : e ∈ s.retained) (he' : e' ∈ s.retained) (hid : e.terminalId = e'.terminalId) :
    e = e' :=
  inj_on_of_nodup_map h.names he he' hid

theorem Sound.get_iff : s.get terminalId = some e ↔ e ∈ s.retained ∧ e.terminalId = terminalId :=
  Keyed.get_eq_some_iff h.names

/-- A timer with the handle of a session's is that session's. -/
theorem Sound.owner (ht : t ∈ s.timers) (he : e ∈ s.retained)
    (hhandle : t.handle = e.hard ∨ e.reclaim = some t.handle) : t.terminalId = e.terminalId := by
  have hown : (⟨t.handle, e.terminalId⟩ : Timer) ∈ s.timers :=
    (h.armed _).mpr ⟨e, he, mem_timers.mpr ⟨rfl, hhandle⟩⟩
  exact congrArg Timer.terminalId (inj_on_of_nodup_map h.handles ht hown rfl)

/-! ## Ending a retention -/

omit h in
/-- The next number is below the one after it. -/
theorem below_concat {α : Type} {l : List α} {a : α} {number : α → ℕ} {n : ℕ}
    (hl : ∀ x ∈ l, number x < n) (ha : number a = n) : ∀ x ∈ l ++ [a], number x < n + 1 := by
  intro x hx
  rcases mem_append.mp hx with hin | hin
  · exact Nat.lt_succ_of_lt (hl x hin)
  · rw [mem_singleton.mp hin, ha]
    exact Nat.lt_succ_self _

omit h in
theorem perm_filter (hnodup : (s.retained.map RetainedSession.terminalId).Nodup) (he : e ∈ s.retained) :
    s.retained.Perm (e :: s.retained.filter fun x => x.terminalId ≠ e.terminalId) := by
  revert hnodup he
  generalize s.retained = l
  intro hnodup he
  induction l with
  | nil => exact nomatch he
  | cons x l ih =>
    obtain ⟨hx, hl⟩ := nodup_cons.mp hnodup
    rcases mem_cons.mp he with rfl | hin
    · rw [filter_cons_of_neg (by simp), filter_eq_self.mpr]
      intro y hy
      exact decide_eq_true fun heq => hx (heq ▸ List.mem_map_of_mem hy)
    · have hne : x.terminalId ≠ e.terminalId := fun heq => hx (heq ▸ List.mem_map_of_mem hin)
      rw [filter_cons_of_pos (by simpa using hne)]
      exact ((ih hl hin).cons x).trans (List.Perm.swap e x _)

/-- What is left of a state when a session's timers are cleared and it is deleted, wherever the
retention it was goes. -/
theorem Sound.ended (hget : s.get terminalId = some e) {disposed reclaimed : List ℕ}
    (hgone : ∀ call, disposed.count call + reclaimed.count call
      = s.disposed.count call + s.reclaimed.count call + [e.dispose].count call) :
    Sound { delete terminalId (clearTimers e s) with disposed, reclaimed } := by
  obtain ⟨he, rfl⟩ := get_mem hget
  -- the session and its timers go, and nothing of the others
  have hretained : (delete e.terminalId (clearTimers e s)).retained
      = s.retained.filter fun x => x.terminalId ≠ e.terminalId := by
    rw [delete, clearTimers_retained]
  have htimers : (delete e.terminalId (clearTimers e s)).timers
      = s.timers.filter fun t => t.handle ≠ e.hard ∧ e.reclaim ≠ some t.handle := clearTimers_timers e s
  have hsame : (clearTimers e s).handles = s.handles ∧ (clearTimers e s).kept = s.kept
      ∧ (clearTimers e s).calls = s.calls := by
    rw [clearTimers_rest]
    exact ⟨rfl, rfl, rfl⟩
  constructor
  · change ((delete e.terminalId (clearTimers e s)).retained.map _).Nodup
    rw [hretained]
    exact h.names.sublist (filter_sublist.map _)
  · change ((delete e.terminalId (clearTimers e s)).timers.map _).Nodup
    rw [htimers]
    exact h.handles.sublist (filter_sublist.map _)
  · intro t ht
    change t ∈ (delete e.terminalId (clearTimers e s)).timers at ht
    rw [htimers] at ht
    exact hsame.1 ▸ h.fresh t (mem_of_mem_filter ht)
  · intro t
    change t ∈ (delete e.terminalId (clearTimers e s)).timers
      ↔ ∃ x ∈ (delete e.terminalId (clearTimers e s)).retained, t ∈ x.timers
    rw [htimers, hretained]
    simp only [mem_filter, decide_eq_true_eq]
    constructor
    · rintro ⟨ht, hhard, hreclaim⟩
      obtain ⟨x, hx, hin⟩ := (h.armed t).mp ht
      refine ⟨x, ⟨hx, fun hid => ?_⟩, hin⟩
      obtain rfl := h.same_name hx he hid
      exact (mem_timers.mp hin).2.elim hhard hreclaim
    · rintro ⟨x, ⟨hx, hid⟩, hin⟩
      have ht := (h.armed t).mpr ⟨x, hx, hin⟩
      have hname := (mem_timers.mp hin).1
      exact ⟨ht, fun hhard => hid (hname.symm.trans (h.owner ht he (.inl hhard))),
        fun hreclaim => hid (hname.symm.trans (h.owner ht he (.inr hreclaim)))⟩
  · intro x hx
    change x ∈ (delete e.terminalId (clearTimers e s)).retained at hx
    rw [hretained] at hx
    exact h.apart x (mem_of_mem_filter hx)
  · intro call
    have hplaces := h.once call
    have hcount := ((perm_filter h.names he).map RetainedSession.dispose).count_eq call
    have hmoved := hgone call
    change ((delete e.terminalId (clearTimers e s)).retained.map _).count call + disposed.count call + reclaimed.count call
      = if call ∈ (clearTimers e s).kept then 1 else 0
    rw [hretained, hsame.2.1, ← hplaces, State.places, hcount, map_cons, count_cons]
    rw [count_singleton] at hmoved
    omega
  · intro call hcall
    change call ∈ (clearTimers e s).kept at hcall
    change call < (clearTimers e s).calls
    rw [hsame.2.2]
    rw [hsame.2.1] at hcall
    exact h.calls call hcall

omit h in
theorem ended_rest (terminalId : Str) (e : RetainedSession) (s : State) :
    (delete terminalId (clearTimers e s)).disposed = s.disposed
      ∧ (delete terminalId (clearTimers e s)).reclaimed = s.reclaimed := by
  rw [delete, clearTimers_rest]
  exact ⟨rfl, rfl⟩

theorem Sound.after_release (terminalId : Str) : Sound (release terminalId s) := by
  cases hget : s.get terminalId with
  | none =>
    rw [release_none hget]
    exact h
  | some e =>
    have hsame := ended_rest terminalId e s
    have hended := @Sound.ended s e terminalId h hget (s.disposed ++ [e.dispose]) s.reclaimed fun call => by
      rw [count_append]
      omega
    rw [release_some hget, hsame.1]
    rw [← hsame.2] at hended
    exact hended

theorem Sound.after_reclaim (terminalId : Str) : Sound (reclaimPeerSession terminalId s) := by
  rw [reclaimPeerSession]
  cases hget : s.get terminalId with
  | none => exact h
  | some e =>
    have hsame := ended_rest terminalId e s
    have hended := @Sound.ended s e terminalId h hget s.disposed (s.reclaimed ++ [e.dispose]) fun call => by
      rw [count_append]
      omega
    dsimp only
    rw [hsame.2]
    rw [← hsame.1] at hended
    exact hended

/-- A timer that fires is one of its session's, which are all cleared. -/
theorem Sound.fire_eq (ht : t ∈ s.timers) : fire t s = release t.terminalId s := by
  obtain ⟨e, he, hin⟩ := (h.armed t).mp ht
  obtain ⟨hname, hhandle⟩ := mem_timers.mp hin
  have hget : s.get t.terminalId = some e := h.get_iff.mpr ⟨he, hname.symm⟩
  have hget' : (clearTimeout t.handle s).get t.terminalId = some e := hget
  have htimers : (clearTimers e (clearTimeout t.handle s)).timers = (clearTimers e s).timers := by
    rw [clearTimers_timers, clearTimers_timers]
    change ((s.timers.filter _).filter _) = _
    rw [List.filter_filter]
    refine filter_congr fun x _ => ?_
    rw [Bool.and_eq_left_iff_imp]
    intro hx
    simp only [decide_eq_true_eq] at hx ⊢
    rintro heq
    rcases hhandle with hhard | hreclaim
    · exact hx.1 (heq.trans hhard)
    · exact hx.2 (heq ▸ hreclaim)
  have hclear : clearTimers e (clearTimeout t.handle s) = clearTimers e s := by
    rw [clearTimers_rest, htimers, clearTimers_rest e s]
    rfl
  rw [fire, release_some hget', release_some hget, hclear]

/-! ## The reclaim clock -/

omit h in
/-- Changing when a session is given up changes neither its name nor whose it is. -/
theorem setReclaim_map {β : Type} (f : RetainedSession → β) (hf : ∀ e reclaim, f { e with reclaim } = f e)
    (terminalId : Str) (reclaim : Option ℕ) (s : State) :
    (setReclaim terminalId reclaim s).retained.map f = s.retained.map f := by
  rw [setReclaim, List.map_map]
  refine map_congr_left fun e _ => ?_
  rw [Function.comp_apply]
  split_ifs
  · exact hf e reclaim
  · rfl

omit h in
theorem mem_setReclaim {reclaim : Option ℕ} : e' ∈ (setReclaim terminalId reclaim s).retained
    ↔ ∃ x ∈ s.retained, x.terminalId ≠ terminalId ∧ e' = x ∨ x.terminalId = terminalId ∧ e' = { x with reclaim } := by
  rw [setReclaim, List.mem_map]
  refine exists_congr fun x => and_congr_right fun _ => ?_
  split_ifs with hid
  · simp [hid, eq_comm]
  · simp [hid, eq_comm]

/-- An entry gets its second timer. -/
theorem Sound.after_arm (terminalId : Str) : Sound (armReclaim terminalId s) := by
  rw [armReclaim]
  cases hget : s.get terminalId with
  | none => exact h
  | some e =>
    obtain ⟨he, rfl⟩ := get_mem hget
    dsimp only
    cases hre : e.reclaim with
    | some handle => exact h
    | none =>
      rw [if_neg (by decide)]
      have hold : ∀ t ∈ e.timers, t.handle = e.hard := fun t ht =>
        (mem_timers.mp ht).2.resolve_right (by rw [hre]; exact nofun)
      -- no entry knows the new handle yet
      have hfresh : ∀ x ∈ s.retained, x.hard ≠ s.handles ∧ x.reclaim ≠ some s.handles := by
        intro x hx
        constructor
        · intro heq
          have hlt := h.fresh ⟨x.hard, x.terminalId⟩ ((h.armed _).mpr ⟨x, hx, mem_timers.mpr ⟨rfl, .inl rfl⟩⟩)
          exact absurd heq (Nat.ne_of_lt hlt)
        · intro heq
          have hlt := h.fresh ⟨s.handles, x.terminalId⟩ ((h.armed _).mpr ⟨x, hx, mem_timers.mpr ⟨rfl, .inr heq⟩⟩)
          exact absurd rfl (Nat.ne_of_lt hlt)
      constructor
      · rw [setReclaim_map _ fun _ _ => rfl]
        exact h.names
      · change ((s.timers ++ [Timer.mk s.handles e.terminalId]).map Timer.handle).Nodup
        rw [map_append]
        refine h.handles.append (nodup_singleton _) (disjoint_singleton.mpr fun hin => ?_)
        obtain ⟨t, ht, heq⟩ := List.mem_map.mp hin
        exact absurd heq (Nat.ne_of_lt (h.fresh t ht))
      · exact below_concat h.fresh rfl
      · intro t
        change t ∈ s.timers ++ [Timer.mk s.handles e.terminalId] ↔ _
        rw [mem_append, mem_singleton, h.armed]
        constructor
        · rintro (⟨x, hx, hin⟩ | rfl)
          · by_cases hid : x.terminalId = e.terminalId
            · obtain rfl := h.same_name hx he hid
              exact ⟨{ x with reclaim := some s.handles }, mem_setReclaim.mpr ⟨x, hx, .inr ⟨rfl, rfl⟩⟩,
                mem_timers.mpr ⟨(mem_timers.mp hin).1, .inl (hold t hin)⟩⟩
            · exact ⟨x, mem_setReclaim.mpr ⟨x, hx, .inl ⟨hid, rfl⟩⟩, hin⟩
          · exact ⟨{ e with reclaim := some s.handles }, mem_setReclaim.mpr ⟨e, he, .inr ⟨rfl, rfl⟩⟩, mem_timers.mpr ⟨rfl, .inr rfl⟩⟩
        -- a timer of an entry was armed before, or is the one armed now
        · rintro ⟨y, hy, hin⟩
          obtain ⟨x, hx, ⟨hid, rfl⟩ | ⟨hid, rfl⟩⟩ := mem_setReclaim.mp hy
          · exact .inl ⟨y, hx, hin⟩
          · obtain rfl := h.same_name hx he hid
            obtain ⟨hname, hhard | hreclaim⟩ := mem_timers.mp hin
            · exact .inl ⟨x, hx, mem_timers.mpr ⟨hname, .inl hhard⟩⟩
            · obtain ⟨handle, name⟩ := t
              have hhandle : handle = s.handles := (some.inj hreclaim).symm
              have hid' : name = x.terminalId := hname
              rw [hhandle, hid']
              exact .inr rfl
      · intro y hy
        obtain ⟨x, hx, ⟨hid, rfl⟩ | ⟨hid, rfl⟩⟩ := mem_setReclaim.mp hy
        · exact h.apart y hx
        · exact fun heq => (hfresh x hx).1 (some.inj heq).symm
      · intro call
        have hplaces := h.once call
        rw [State.places, setReclaim_map _ fun _ _ => rfl]
        exact hplaces
      · exact h.calls

theorem Sound.after_disarm (terminalId : Str) : Sound (disarmReclaim terminalId s) := by
  rw [disarmReclaim]
  cases hget : s.get terminalId with
  | none => exact h
  | some e =>
    obtain ⟨he, rfl⟩ := get_mem hget
    dsimp only
    cases hre : e.reclaim with
    | none => exact h
    | some handle =>
      rw [if_neg (by exact Bool.false_ne_true)]
      have hclear : clearReclaim e s = clearTimeout handle s := by rw [clearReclaim, hre]
      -- the hard timer stays armed
      have hapart := h.apart e he
      rw [hre] at hapart
      rw [hclear]
      constructor
      · rw [setReclaim_map _ fun _ _ => rfl]
        exact h.names
      · exact h.handles.sublist (filter_sublist.map _)
      · exact fun t ht => h.fresh t (mem_of_mem_filter ht)
      · intro t
        change t ∈ s.timers.filter (fun t => t.handle ≠ handle) ↔ _
        rw [mem_filter, h.armed, decide_eq_true_eq]
        constructor
        · rintro ⟨⟨x, hx, hin⟩, hne⟩
          -- a timer that stays is the session's hard one, or another session's
          by_cases hid : x.terminalId = e.terminalId
          · obtain rfl := h.same_name hx he hid
            obtain ⟨hname, hhandle⟩ := mem_timers.mp hin
            refine ⟨{ x with reclaim := none }, mem_setReclaim.mpr ⟨x, hx, .inr ⟨rfl, rfl⟩⟩, mem_timers.mpr ⟨hname, .inl ?_⟩⟩
            refine hhandle.resolve_right fun hreclaim => hne ?_
            exact (some.inj (hre.symm.trans hreclaim)).symm
          · exact ⟨x, mem_setReclaim.mpr ⟨x, hx, .inl ⟨hid, rfl⟩⟩, hin⟩
        · rintro ⟨y, hy, hin⟩
          obtain ⟨x, hx, ⟨hid, rfl⟩ | ⟨hid, rfl⟩⟩ := mem_setReclaim.mp hy
          · refine ⟨⟨y, hx, hin⟩, fun hhandle => hid ?_⟩
            have ht := (h.armed t).mpr ⟨y, hx, hin⟩
            exact (mem_timers.mp hin).1.symm.trans (h.owner ht he (.inr (hhandle ▸ hre)))
          · obtain rfl := h.same_name hx he hid
            obtain ⟨hname, hhard | hreclaim⟩ := mem_timers.mp hin
            · exact ⟨⟨x, hx, mem_timers.mpr ⟨hname, .inl hhard⟩⟩, fun heq => hapart (heq ▸ hhard ▸ rfl)⟩
            · exact nomatch hreclaim
      · intro y hy
        obtain ⟨x, hx, ⟨hid, rfl⟩ | ⟨hid, rfl⟩⟩ := mem_setReclaim.mp hy
        · exact h.apart y hx
        · exact nofun
      · intro call
        have hplaces := h.once call
        rw [State.places, setReclaim_map _ fun _ _ => rfl]
        exact hplaces
      · exact h.calls

omit h

/-! ## Snapshots and the cap -/

theorem release_length (terminalId : Str) (s : State) : (release terminalId s).retained.length ≤ s.retained.length := by
  rw [release_retained]
  exact length_filter_le _ _

theorem setReclaim_length (terminalId : Str) (reclaim : Option ℕ) (s : State) :
    (setReclaim terminalId reclaim s).retained.length = s.retained.length := length_map _

theorem armReclaim_length (terminalId : Str) (s : State) :
    (armReclaim terminalId s).retained.length = s.retained.length := by
  rw [armReclaim]
  cases s.get terminalId with
  | none => rfl
  | some e =>
    dsimp only
    split_ifs
    · rfl
    · exact setReclaim_length _ _ _

theorem disarmReclaim_length (terminalId : Str) (s : State) :
    (disarmReclaim terminalId s).retained.length = s.retained.length := by
  rw [disarmReclaim]
  cases s.get terminalId with
  | none => rfl
  | some e =>
    dsimp only
    split_ifs
    · rfl
    · rw [setReclaim_length, clearReclaim]
      cases e.reclaim <;> rfl

theorem Sound.after_publishTo (h : Sound s) (entry : RetainedSession) :
    Sound (publishTo s entry) ∧ (publishTo s entry).retained.length ≤ s.retained.length := by
  rw [publishTo]
  rcases s.connected entry.slug with _ | connected
  · exact ⟨h.after_release _, release_length _ _⟩
  · cases connected with
    | true => exact ⟨h.after_arm _, Nat.le_of_eq (armReclaim_length _ _)⟩
    | false => exact ⟨h.after_disarm _, Nat.le_of_eq (disarmReclaim_length _ _)⟩

theorem Sound.after_publish (h : Sound s) (snapshot : List PeerConnectivity) :
    Sound (publishPeerSnapshot snapshot s) ∧ (publishPeerSnapshot snapshot s).retained.length ≤ s.retained.length := by
  have hfold : ∀ (copy : List RetainedSession) (s : State), Sound s →
      Sound (copy.foldl publishTo s) ∧ (copy.foldl publishTo s).retained.length ≤ s.retained.length := by
    intro copy
    induction copy with
    | nil => exact fun s h => ⟨h, Nat.le_refl _⟩
    | cons entry copy ih =>
      intro s h
      obtain ⟨hnext, hle⟩ := h.after_publishTo entry
      obtain ⟨hrest, hle'⟩ := ih _ hnext
      exact ⟨hrest, Nat.le_trans hle' hle⟩
  exact hfold s.retained _ ⟨h.names, h.handles, h.fresh, h.armed, h.apart, h.once, h.calls⟩

theorem victim_isSome (h : s.retained ≠ []) : (victim s).isSome := by
  obtain ⟨e, rest, he⟩ := exists_cons_of_ne_nil h
  rw [victim, he]
  cases (e :: rest).find? fun e => e.reclaim.isSome <;> rfl

theorem Sound.after_cap (h : Sound s) : Sound (enforceCap s) ∧ (enforceCap s).retained.length ≤ MAX_RETAINED := by
  induction hlen : s.retained.length using Nat.strongRecOn generalizing s with
  | ind n ih =>
    rw [enforceCap]
    by_cases hcap : s.retained.length > MAX_RETAINED
    · rw [if_pos hcap]
      split
      next hnone =>
        have hsome := @victim_isSome s (by rw [ne_eq, ← length_eq_zero_iff]; omega)
        rw [hnone] at hsome
        exact nomatch hsome
      next terminalId hsome =>
        exact ih _ (hlen ▸ release_shorter (victim_mem hsome)) (h.after_release _) rfl
    · rw [if_neg hcap]
      exact ⟨h, Nat.le_of_not_lt hcap⟩

/-! ## Retaining -/

/-- A session on a peer that is paired is added behind the others. -/
def added (terminalId slug : Str) (s : State) : State :=
  { setTimeout terminalId s with
    calls := s.calls + 1
    retained := s.retained ++ [⟨terminalId, slug, s.calls, s.handles, none⟩]
    kept := s.kept ++ [s.calls] }

theorem Sound.after_added (h : Sound s) (hnone : s.get terminalId = none) (slug : Str) : Sound (added terminalId slug s) := by
  have hnew : terminalId ∉ s.retained.map RetainedSession.terminalId := Keyed.get_eq_none_iff.mp hnone
  -- the timer that is armed has a handle of its own
  have hold : ∀ t ∈ s.timers, t.handle ≠ s.handles := fun t ht => Nat.ne_of_lt (h.fresh t ht)
  constructor
  · change ((s.retained ++ [_]).map RetainedSession.terminalId).Nodup
    rw [map_append]
    exact h.names.append (nodup_singleton _) (disjoint_singleton.mpr hnew)
  · change ((s.timers ++ [Timer.mk s.handles terminalId]).map Timer.handle).Nodup
    rw [map_append]
    refine h.handles.append (nodup_singleton _) (disjoint_singleton.mpr fun hin => ?_)
    obtain ⟨t, ht, heq⟩ := List.mem_map.mp hin
    exact hold t ht heq
  · exact below_concat h.fresh rfl
  · intro t
    change t ∈ s.timers ++ [Timer.mk s.handles terminalId] ↔ ∃ e ∈ s.retained ++ [_], t ∈ e.timers
    rw [mem_append, mem_singleton, h.armed]
    constructor
    · rintro (⟨e, he, hin⟩ | rfl)
      · exact ⟨e, mem_append_left _ he, hin⟩
      · exact ⟨_, mem_append_right _ (mem_singleton_self _), mem_timers.mpr ⟨rfl, .inl rfl⟩⟩
    · rintro ⟨e, he, hin⟩
      rcases mem_append.mp he with he | he
      · exact .inl ⟨e, he, hin⟩
      · obtain rfl := mem_singleton.mp he
        obtain ⟨hname, hhandle | hreclaim⟩ := mem_timers.mp hin
        · obtain ⟨handle, name⟩ := t
          have hhandle : handle = s.handles := hhandle
          have hname : name = terminalId := hname
          rw [hhandle, hname]
          exact .inr rfl
        · exact nomatch hreclaim
  · intro e he
    rcases mem_append.mp he with he | he
    · exact h.apart e he
    · rw [mem_singleton.mp he]
      exact nofun
  · intro call
    have hplaces := h.once call
    -- and the retention is a new call
    have hnot : s.calls ∉ s.kept := fun hin => Nat.lt_irrefl _ (h.calls _ hin)
    change ((s.retained ++ [_]).map RetainedSession.dispose).count call + s.disposed.count call + s.reclaimed.count call
      = if call ∈ s.kept ++ [s.calls] then 1 else 0
    rw [State.places] at hplaces
    rw [map_append, count_append, map_singleton, count_singleton]
    by_cases hcall : call = s.calls
    · rw [hcall, if_neg hnot] at hplaces
      rw [hcall, if_pos (mem_append_right _ (mem_singleton_self _)), beq_self_eq_true, if_pos rfl]
      omega
    · have hmem : (call ∈ s.kept ++ [s.calls]) ↔ call ∈ s.kept := by
        rw [mem_append, mem_singleton, or_iff_left hcall]
      rw [if_neg (by simpa using Ne.symm hcall)]
      simp only [hmem]
      omega
  · exact below_concat h.calls rfl

theorem release_kept (terminalId : Str) (s : State) : (release terminalId s).kept = s.kept := by
  cases hget : s.get terminalId with
  | none => rw [release_none hget]
  | some e =>
    rw [release_some hget, clearTimers_rest]
    rfl

theorem enforceCap_kept (s : State) : (enforceCap s).kept = s.kept := by
  induction hlen : s.retained.length using Nat.strongRecOn generalizing s with
  | ind n ih =>
    rw [enforceCap]
    split_ifs
    · split
      · rfl
      next terminalId hsome =>
        rw [ih _ (hlen ▸ release_shorter (victim_mem hsome)) _ rfl, release_kept]
    · rfl

theorem armReclaim_kept (terminalId : Str) (s : State) : (armReclaim terminalId s).kept = s.kept := by
  rw [armReclaim]
  cases s.get terminalId with
  | none => rfl
  | some e =>
    dsimp only
    split_ifs <;> rfl

/-- An offer is refused, or the session is retained already, and then only the call is counted;
or it is added, and the cap holds again. -/
theorem retain_cases (terminalId : Str) (s : State) :
    (∃ retained, retainPeerSession terminalId s = (retained, { s with calls := s.calls + 1 })
        ∧ (retained = true ↔ (s.get terminalId).isSome))
      ∨ s.get terminalId = none ∧ ∃ slug,
        retainPeerSession terminalId s = (true, enforceCap (added terminalId slug s))
          ∨ retainPeerSession terminalId s = (true, enforceCap (armReclaim terminalId (added terminalId slug s))) := by
  rw [retainPeerSession]
  dsimp only
  cases hget : s.get terminalId with
  | some e =>
    have hget' : ({ s with calls := s.calls + 1 } : State).get terminalId = some e := hget
    rw [hget', if_pos (show (some e).isSome = true from rfl)]
    exact .inl ⟨true, rfl, iff_of_true rfl rfl⟩
  | none =>
    have hget' : ({ s with calls := s.calls + 1 } : State).get terminalId = none := hget
    rw [hget', if_neg (by exact Bool.false_ne_true)]
    split_ifs with hpeer
    · exact .inl ⟨false, rfl, iff_of_false Bool.false_ne_true Bool.false_ne_true⟩
    · cases ({ s with calls := s.calls + 1 } : State).connected (peerSlugOf terminalId) with
      | none => exact .inl ⟨false, rfl, iff_of_false Bool.false_ne_true Bool.false_ne_true⟩
      | some connected =>
        cases connected with
        | true => exact .inr ⟨rfl, peerSlugOf terminalId, .inr rfl⟩
        | false => exact .inr ⟨rfl, peerSlugOf terminalId, .inl rfl⟩

end

/-! ## Runs -/

structure Inv (s : State) : Prop where
  sound : Sound s
  cap : s.retained.length ≤ MAX_RETAINED

theorem inv_start : Inv {} where
  sound :=
    { names := nodup_nil
      handles := nodup_nil
      fresh := nofun
      armed := fun _ => ⟨nofun, fun ⟨_, he, _⟩ => nomatch he⟩
      apart := nofun
      once := fun _ => rfl
      calls := nofun }
  cap := Nat.zero_le _

section
variable {s s' : State} {event : Event}

theorem Inv.retain (h : Inv s) (terminalId : Str) : Inv (retainPeerSession terminalId s).2 := by
  rcases retain_cases terminalId s with ⟨retained, heq, -⟩ | ⟨hnone, slug, heq | heq⟩
  · rw [heq]
    exact ⟨⟨h.sound.names, h.sound.handles, h.sound.fresh, h.sound.armed, h.sound.apart, h.sound.once,
      fun call hcall => Nat.lt_succ_of_lt (h.sound.calls call hcall)⟩, h.cap⟩
  · rw [heq]
    obtain ⟨hsound, hcap⟩ := (h.sound.after_added hnone slug).after_cap
    exact ⟨hsound, hcap⟩
  · rw [heq]
    obtain ⟨hsound, hcap⟩ := ((h.sound.after_added hnone slug).after_arm terminalId).after_cap
    exact ⟨hsound, hcap⟩

theorem reclaim_length (terminalId : Str) (s : State) :
    (reclaimPeerSession terminalId s).retained.length ≤ s.retained.length := by
  rw [reclaimPeerSession]
  cases s.get terminalId with
  | none => exact Nat.le_refl _
  | some e =>
    change ((clearTimers e s).retained.filter _).length ≤ _
    rw [clearTimers_retained]
    exact length_filter_le _ _

theorem Inv.step (h : Inv s) (hstep : sessions.step s event s') : Inv s' := by
  cases event with
  | retain terminalId =>
    obtain rfl := hstep
    exact h.retain terminalId
  | reclaim terminalId =>
    obtain rfl := hstep
    exact ⟨h.sound.after_reclaim terminalId, Nat.le_trans (reclaim_length _ _) h.cap⟩
  | publish snapshot =>
    obtain rfl := hstep
    obtain ⟨hsound, hle⟩ := h.sound.after_publish snapshot
    exact ⟨hsound, Nat.le_trans hle h.cap⟩
  | fire t =>
    obtain ⟨ht, rfl⟩ := hstep
    rw [h.sound.fire_eq ht]
    exact ⟨h.sound.after_release _, Nat.le_trans (release_length _ _) h.cap⟩

theorem inv_of_reachable (h : Reachable sessions s) : Inv s :=
  h.invariant (fun s hs => by obtain rfl : s = {} := hs; exact inv_start) fun _ _ _ hs hstep => hs.step hstep

/-- Where the retentions are that were begun. -/
structure Once (s : State) : Prop where
  /-- Each is retained, or it was disposed by the dispose it came with, or handed back: one of
  these, and once. -/
  one_place : ∀ call ∈ s.kept, s.places call = 1
  /-- No other dispose was called. -/
  no_other : ∀ call, call ∉ s.kept → s.places call = 0
  /-- A timer is armed for a session that is retained. -/
  no_stale : ∀ t ∈ s.timers, (s.get t.terminalId).isSome
  /-- What is retained has a timer that will dispose it by its own dispose. -/
  ends : ∀ e ∈ s.retained, Timer.mk e.hard e.terminalId ∈ s.timers
    ∧ (fire ⟨e.hard, e.terminalId⟩ s).disposed = s.disposed ++ [e.dispose]
  cap : s.retained.length ≤ MAX_RETAINED

/-- What an offer returns and begins. -/
structure Offer (s : State) (terminalId : Str) : Prop where
  /-- A session that is not retained: it is when the answer says so, by the dispose offered. -/
  begins : s.get terminalId = none →
    ((retainPeerSession terminalId s).1 = true ↔ s.calls ∈ (retainPeerSession terminalId s).2.kept)
  /-- One that is retained stays so, by the dispose it has. -/
  again : (s.get terminalId).isSome →
    retainPeerSession terminalId s = (true, { s with calls := s.calls + 1 })

/-- Retentions end once. A session offered while it is retained keeps the retention it has. -/
theorem retained_once (h : Reachable sessions s) : Once s ∧ ∀ terminalId, Offer s terminalId := by
  have hinv := inv_of_reachable h
  have hsound := hinv.sound
  have hnew : s.calls ∉ s.kept := fun hin => Nat.lt_irrefl _ (hsound.calls _ hin)
  constructor
  · constructor
    · exact fun call hcall => (hsound.once call).trans (if_pos hcall)
    · exact fun call hcall => (hsound.once call).trans (if_neg hcall)
    · intro t ht
      obtain ⟨e, he, hin⟩ := (hsound.armed t).mp ht
      rw [hsound.get_iff.mpr ⟨he, (mem_timers.mp hin).1.symm⟩]
      rfl
    · intro e he
      have harmed := (hsound.armed ⟨e.hard, e.terminalId⟩).mpr ⟨e, he, mem_timers.mpr ⟨rfl, .inl rfl⟩⟩
      refine ⟨harmed, ?_⟩
      have hget : s.get e.terminalId = some e := hsound.get_iff.mpr ⟨he, rfl⟩
      rw [hsound.fire_eq harmed, release_some hget, (ended_rest _ _ _).1]
    · exact hinv.cap
  · intro terminalId
    rcases retain_cases terminalId s with ⟨retained, heq, hretained⟩ | ⟨hnone, slug, heq⟩
    · refine ⟨fun hnone => ?_, fun hsome => ?_⟩
      · rw [heq, hretained, hnone]
        exact iff_of_false Bool.false_ne_true hnew
      · rw [heq, hretained.mpr hsome]
    · refine ⟨fun _ => ?_, fun hsome => ?_⟩
      · have hkept : s.calls ∈ (added terminalId slug s).kept := mem_append_right _ (mem_singleton_self _)
        rcases heq with heq | heq
        · rw [heq, enforceCap_kept]
          exact iff_of_true rfl hkept
        · rw [heq, enforceCap_kept, armReclaim_kept]
          exact iff_of_true rfl hkept
      · rw [hnone] at hsome
        exact nomatch hsome

end

/-! ## A session that is offered twice

A session is offered twice while its peer is away, and then its time is up. -/

def terminal : Str := "peer-0a1b2c3d-term-1".toList

def away : State := publishPeerSnapshot [⟨"0a1b2c3d".toList, false⟩] {}

def offered : State := (retainPeerSession terminal away).2

def offered_again : State := (retainPeerSession terminal offered).2

def timed_out : State := fire ⟨0, terminal⟩ offered_again

theorem reachable_offered_again : Reachable sessions offered_again := by
  have hstart : Reachable sessions {} := .start rfl
  have haway : Reachable sessions away := hstart.next (a := .publish [⟨"0a1b2c3d".toList, false⟩]) rfl
  have hoffered : Reachable sessions offered := haway.next (a := .retain terminal) rfl
  exact hoffered.next (a := .retain terminal) rfl

theorem retained_once_twice : Once offered_again ∧ Offer offered_again terminal :=
  ⟨(retained_once reachable_offered_again).1, (retained_once reachable_offered_again).2 terminal⟩

/-- The second offer is taken, but its dispose is never called and it is not handed back. -/
theorem second_offer_lost : Reachable sessions timed_out
    ∧ (retainPeerSession terminal away).1 = true ∧ (retainPeerSession terminal offered).1 = true
    ∧ timed_out.retained = [] ∧ timed_out.timers = [] ∧ timed_out.disposed = [0] ∧ timed_out.reclaimed = [] := by
  have hfire : Timer.mk 0 terminal ∈ offered_again.timers := by decide +kernel
  have hreach : Reachable sessions timed_out :=
    reachable_offered_again.next (a := .fire ⟨0, terminal⟩) ⟨hfire, rfl⟩
  exact ⟨hreach, by decide +kernel⟩

end Lpm.Retained
