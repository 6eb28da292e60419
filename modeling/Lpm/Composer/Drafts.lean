/-
Composer drafts: what is typed and not sent, held in memory under the terminal
(`composerDrafts.ts`) and on disk under the tab's history key (`composerDraftPersist.ts`).

A draft is an object that its composer keeps changing. The memory and the pending writes
hold the object; what is written is what stands in it when the write fires. A composer
changes its object and saves it in one go, so no write fires in between.

An image map has one path a token, and its order is read by nobody. JSON keeps all there is
in a persisted draft, so what is on disk under a key is the draft, or a text that is none.
-/
import Mathlib.Data.List.AList
import Lpm.Lib.RustText

set_option autoImplicit false

open RustText

namespace Lpm.Composer

open Function

/-- Image paths by token. -/
abbrev Images := Std.TreeMap ℕ String compare

structure ComposerHistoryEntry where
  text : Str
  images : Images

/-- `histIdx` is -1 for the live draft, else the recalled message's place in the history; what
was typed waits in `stash` then. -/
structure ComposerInputTab where
  id : String
  text : Str
  imagePaths : Images
  imgCounter : ℕ
  histIdx : ℤ
  stash : Option ComposerHistoryEntry

structure ComposerDraft where
  tabs : List ComposerInputTab
  activeTabId : String
  history : List ComposerHistoryEntry

/-- What an older version left out is none. -/
structure PersistedTab where
  id : String
  text : Option Str
  images : Option Images
  imgCounter : Option ℕ

structure PersistedDraft where
  at_ : Option ℕ
  activeTabId : String
  tabs : List PersistedTab

def MAX_AGE_MS : ℕ := 30 * 24 * 60 * 60 * 1000

/-! ## To disk and back -/

/-- The white space that JavaScript's `trim` takes off. -/
def is_white (c : Char) : Bool :=
  c.toNat ∈ [0x9, 0xA, 0xB, 0xC, 0xD, 0x20, 0xA0, 0x1680, 0x2028, 0x2029, 0x202F, 0x205F, 0x3000, 0xFEFF]
    || (0x2000 ≤ c.toNat && c.toNat ≤ 0x200A)

def is_blank (text : Str) : Bool := text.all is_white

/-- A tab on a recalled message persists what was typed. -/
def collapseTab (tab : ComposerInputTab) : PersistedTab :=
  if tab.histIdx ≥ 0 then
    { id := tab.id
      text := some ((tab.stash.map (·.text)).getD [])
      images := some ((tab.stash.map (·.images)).getD ∅)
      imgCounter := some tab.imgCounter }
  else
    { id := tab.id, text := some tab.text, images := some tab.imagePaths, imgCounter := some tab.imgCounter }

def isEmpty (tabs : List PersistedTab) : Bool :=
  tabs.all fun t => is_blank (t.text.getD []) && (t.images.getD ∅).isEmpty

def restoreTab (t : PersistedTab) : ComposerInputTab :=
  { id := t.id
    text := t.text.getD []
    imagePaths := t.images.getD ∅
    imgCounter := t.imgCounter.getD 0
    histIdx := -1
    stash := none }

/-- The draft of what was read, when it has a tab. -/
def restoreDraft (parsed : PersistedDraft) : Option ComposerDraft :=
  match parsed.tabs with
  | [] => none
  | first :: _ =>
    some {
      tabs := parsed.tabs.map restoreTab
      activeTabId :=
        if parsed.tabs.any fun t => t.id = parsed.activeTabId then parsed.activeTabId else first.id
      history := [] }

/-! ## The window's state -/

/-- The objects, the drafts in memory by terminal, the writes that are pending by history key,
whether the old entries were swept, and the entries on disk by history key, a text that is
no draft as `some none`. -/
structure State where
  objects : ℕ → ComposerDraft
  drafts : String → Option ℕ
  pending : AList fun _ : String => ℕ
  pruned : Bool
  disk : String → Option (Option PersistedDraft)

/-- What a call meets: the time, whether there is a storage, and whether it takes a write. -/
structure Access where
  now : ℕ
  there : Bool
  room : String → Bool

variable (s : State)

/-- Sweeps what is long abandoned, once per app run. -/
def State.prune (now : ℕ) : State :=
  if s.pruned then s
  else
    { s with
      pruned := true
      disk := fun key =>
        (s.disk key).filter fun entry => (entry.bind (·.at_)).any fun at_ => now ≤ at_ + MAX_AGE_MS }

variable (io : Access)

/-- `write`, with `storage` before it. -/
def State.write (historyKey : String) (draft : ComposerDraft) : State :=
  if io.there then
    let s := s.prune io.now
    let tabs := draft.tabs.map collapseTab
    if tabs.isEmpty || isEmpty tabs then { s with disk := update s.disk historyKey none }
    else if io.room historyKey then
      let payload : PersistedDraft := { at_ := some io.now, activeTabId := draft.activeTabId, tabs }
      { s with disk := update s.disk historyKey (some (some payload)) }
    else s
  else s

/-- The timer of a pending write. -/
def State.fire (historyKey : String) : State :=
  let s' := { s with pending := s.pending.erase historyKey }
  match s.pending.lookup historyKey with
  | some object => s'.write io historyKey (s.objects object)
  | none => s'

/-- On `beforeunload` and `pagehide`. -/
def State.flushPending : State :=
  { s.pending.entries.foldl (fun s entry => s.write io entry.1 (s.objects entry.2)) s with
    pending := ∅ }

/-- One timer a key: a later draft takes the place of the one that waits. -/
def State.schedulePersistDraft (historyKey : String) (object : ℕ) : State :=
  { s with pending := s.pending.insert historyKey object }

def State.loadPersistedDraft (historyKey : String) :
    State × Option ComposerDraft :=
  if io.there then
    let s := s.prune io.now
    match s.disk historyKey with
    | none => (s, none)
    | some entry =>
      match entry.bind restoreDraft with
      | some draft => (s, some draft)
      | none => ({ s with disk := update s.disk historyKey none }, none)
  else (s, none)

def State.deletePersistedDraft (historyKey : String) : State :=
  let s := { s with pending := s.pending.erase historyKey }
  if io.there then
    let s := s.prune io.now
    { s with disk := update s.disk historyKey none }
  else s

/-- No key is the empty one. -/
def given (historyKey : Option String) : Option String := historyKey.filter (· ≠ "")

variable (terminalId : String)

def State.loadComposerDraft
    (historyKey : Option String) : State × Option ComposerDraft :=
  match s.drafts terminalId with
  | some object => (s, some (s.objects object))
  | none =>
    match given historyKey with
    | some key => s.loadPersistedDraft io key
    | none => (s, none)

/-- A composer changes its object to a draft and saves it. -/
def State.saveComposerDraft (object : ℕ) (draft : ComposerDraft)
    (historyKey : Option String) : State :=
  let s := { s with
    objects := update s.objects object draft
    drafts := update s.drafts terminalId (some object) }
  match given historyKey with
  | some key => s.schedulePersistDraft key object
  | none => s

def State.forgetComposerDraft (historyKey : Option String) : State :=
  let s := { s with drafts := update s.drafts terminalId none }
  match given historyKey with
  | some key => s.deletePersistedDraft io key
  | none => s

/-! ## What each leaves alone -/

section
variable (s : State) (io : Access) (key : String)

theorem prune_pruned (h : s.pruned = true) (now : ℕ) : s.prune now = s := if_pos h

theorem prune_frame (now : ℕ) : (s.prune now).objects = s.objects ∧ (s.prune now).drafts = s.drafts ∧
    (s.prune now).pending = s.pending ∧ (s.prune now).pruned = true := by
  cases hpruned : s.pruned with
  | true =>
      rw [prune_pruned s hpruned]
      exact ⟨rfl, rfl, rfl, hpruned⟩
  | false =>
      rw [State.prune, hpruned]
      exact ⟨rfl, rfl, rfl, rfl⟩

variable (draft : ComposerDraft)

theorem write_frame : (s.write io key draft).objects = s.objects ∧
    (s.write io key draft).drafts = s.drafts ∧ (s.write io key draft).pending = s.pending := by
  obtain ⟨hobjects, hdrafts, hpending, -⟩ := prune_frame s io.now
  rw [State.write]
  dsimp only
  split_ifs
  · exact ⟨hobjects, hdrafts, hpending⟩
  · exact ⟨hobjects, hdrafts, hpending⟩
  · exact ⟨hobjects, hdrafts, hpending⟩
  · exact ⟨rfl, rfl, rfl⟩

variable {other : String}

/-- A write leaves the other keys alone once the sweep is done. -/
theorem write_other (hother : other ≠ key)
    (hpruned : s.pruned = true) :
    (s.write io key draft).pruned = true ∧ (s.write io key draft).disk other = s.disk other := by
  rw [State.write, prune_pruned s hpruned]
  dsimp only
  split_ifs
  · exact ⟨hpruned, update_of_ne hother _ _⟩
  · exact ⟨hpruned, update_of_ne hother _ _⟩
  · exact ⟨hpruned, rfl⟩
  · exact ⟨hpruned, rfl⟩

theorem deletePersistedDraft_frame : (s.deletePersistedDraft io key).objects = s.objects ∧
    (s.deletePersistedDraft io key).pending = s.pending.erase key := by
  obtain ⟨hobjects, -, hpending, -⟩ := prune_frame { s with pending := s.pending.erase key } io.now
  rw [State.deletePersistedDraft]
  dsimp only
  split_ifs
  · exact ⟨hobjects, hpending⟩
  · exact ⟨rfl, rfl⟩

theorem deletePersistedDraft_other (hother : other ≠ key) (hpruned : s.pruned = true) :
    (s.deletePersistedDraft io key).pruned = true ∧
      (s.deletePersistedDraft io key).disk other = s.disk other := by
  rw [State.deletePersistedDraft]
  dsimp only
  rw [prune_pruned { s with pending := s.pending.erase key } hpruned]
  split_ifs
  · exact ⟨hpruned, update_of_ne hother _ _⟩
  · exact ⟨hpruned, rfl⟩

theorem loadPersistedDraft_frame : (s.loadPersistedDraft io key).1.objects = s.objects ∧
    (s.loadPersistedDraft io key).1.pending = s.pending := by
  obtain ⟨hobjects, -, hpending, -⟩ := prune_frame s io.now
  rw [State.loadPersistedDraft]
  dsimp only
  split_ifs
  · cases (s.prune io.now).disk key with
    | none => exact ⟨hobjects, hpending⟩
    | some entry =>
        cases hentry : entry.bind restoreDraft with
        | none | some draft => simp only [hentry]; exact ⟨hobjects, hpending⟩
  · exact ⟨rfl, rfl⟩

/-- A load takes off the disk no more than what is no draft. -/
theorem loadPersistedDraft_keeps (hpruned : s.pruned = true)
    (hdraft : ∀ entry, s.disk other = some entry → (entry.bind restoreDraft).isSome = true) :
    (s.loadPersistedDraft io key).1.pruned = true ∧
      (s.loadPersistedDraft io key).1.disk other = s.disk other := by
  rw [State.loadPersistedDraft]
  dsimp only
  rw [prune_pruned _ hpruned]
  split_ifs
  · cases hdisk : s.disk key with
    | none => exact ⟨hpruned, rfl⟩
    | some entry =>
        cases hentry : entry.bind restoreDraft with
        | some draft => simp only [hentry]; exact ⟨hpruned, trivial⟩
        | none =>
            simp only [hentry]
            refine ⟨hpruned, update_of_ne ?_ _ _⟩
            rintro rfl
            have := hdraft entry hdisk
            rw [hentry] at this
            exact absurd this Bool.false_ne_true
  · exact ⟨hpruned, rfl⟩

end

end Lpm.Composer
