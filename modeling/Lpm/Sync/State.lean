/-
The sync surface of `syncsurface.rs`: which files under `~/.lpm` cross machines,
and which keys of a settings file or of a project file stay on their machine.

Only what the sync code reads is here. The same manifest also names what an
export carries, which no function below looks at.
-/
import Lpm.Lib.OrdMap
import Lpm.Lib.RustText

set_option autoImplicit false

open RustText

namespace Lpm.Sync

/-! ## The manifest -/

/-- `GlobalFile`, less the export flag. -/
structure GlobalFile where
  name : String
  sync : Bool

/-- `GlobalDir`, less the export flag. -/
structure GlobalDir where
  name : String
  sync : Bool

/-- `lpm_commands_layout::LAYOUT_DIR`: where each skills list keeps its folders. -/
def LAYOUT_DIR : String := "skill-layout"

/-- `GLOBAL_FILES`. -/
def GLOBAL_FILES : List GlobalFile :=
  [⟨"global.yml", true⟩, ⟨"settings.json", true⟩, ⟨"groups.json", false⟩,
    ⟨"composer-actions.json", true⟩, ⟨"generators.json", true⟩, ⟨"statuses.json", true⟩,
    ⟨"terminals.json", false⟩, ⟨"commit-instructions.txt", true⟩,
    ⟨"pr-title-instructions.txt", true⟩, ⟨"pr-description-instructions.txt", true⟩,
    ⟨"branch-name-instructions.txt", true⟩, ⟨"telegram.json", true⟩]

/-- `GLOBAL_DIRS`, every one of them synced file by file. -/
def GLOBAL_DIRS : List GlobalDir :=
  [⟨"generator-icons", true⟩, ⟨"zdotdir", true⟩, ⟨"memory", true⟩, ⟨LAYOUT_DIR, true⟩,
    ⟨"scripts", true⟩]

/-- `PER_MACHINE_KEYS`: settings keys that are kept on apply and left out of the
portable digest. -/
def PER_MACHINE_KEYS : List String :=
  ["windowWidth", "windowHeight", "windowX", "windowY", "sidebarWidth", "sidebarOrder",
    "pinnedProjects", "peerProjectOrder", "lastSelectedProject", "detachedWindows"]

/-- `PROJECT_LOCAL_KEYS`: the project keys a synced project does not carry. -/
def PROJECT_LOCAL_KEYS : List String :=
  ["root", "ssh", "claudeAccount", "claudeAccounts", "parent_name", "worktree"]

/-! ## Reading it -/

/-- `is_sync_global_file`. -/
def is_sync_global_file (name : String) : Bool :=
  GLOBAL_FILES.any fun f => f.sync && f.name == name

/-- `sync_global_dirs`. -/
def sync_global_dirs : List String := (GLOBAL_DIRS.filter (·.sync)).map (·.name)

/-- `is_os_junk`: what a file browser drops into any directory it opens. -/
def is_os_junk (file_name : String) : Bool :=
  file_name == ".DS_Store" || file_name == "Thumbs.db" || file_name == "desktop.ini"

variable (rel : String)

/-- `lpm_commands_layout::is_layout_file`. -/
def is_layout_file : Bool := path_starts_with rel.toList LAYOUT_DIR.toList

/-- `peersync::is_deletable_global`: a file under a synced directory, the only
globals a deletion may cross. -/
def is_deletable_global : Bool :=
  if (file_name rel.toList).any (fun n => is_os_junk (String.ofList n)) then false
  else sync_global_dirs.any fun d =>
    path_starts_with rel.toList d.toList && 1 < (components rel.toList).length

/-- `peersync::syncable_global`: a top-level sync file or a synced-dir member. -/
def syncable_global : Bool :=
  is_sync_global_file rel || is_deletable_global rel

/-! ## The revision sidecar

`syncstate.rs`: for every config unit a monotonic
revision and its author, and for every paired machine the base the two last
agreed on.

Revisions are `u64` in a release build, so every step up is taken modulo `2^64`. -/

open OrdMap

/-- The content key of a unit known to be deleted. A digest is 64 hex digits, so
the leading NUL keeps the two apart. -/
def TOMBSTONE : String := "\x00deleted"

/-- `u64` addition of one, as a release build does it. -/
def next_rev (rev : ℕ) : ℕ := (rev + 1) % 2 ^ 64

/-- The last observed state of one unit on this machine. -/
@[ext]
structure ItemState where
  digest : String
  rev : ℕ
  device : String
  deleted : Bool
  deriving DecidableEq

/-- `ItemState::bury`. -/
def ItemState.bury (self : ItemState) (device : String) : ItemState :=
  { self with digest := "", rev := next_rev self.rev, device, deleted := true }

/-- The base two machines last agreed on for one unit. -/
@[ext]
structure BaseState where
  rev : ℕ
  digest : String
  deleted : Bool
  deriving DecidableEq

/-- `BaseState::content_key`. -/
def BaseState.content_key (self : BaseState) : String :=
  if self.deleted then TOMBSTONE else self.digest

/-- The sidecar file: this machine's sync identity, what it saw of each unit, and
the bases by remote device. -/
structure SyncState where
  device : String
  items : BTreeMap String ItemState
  peers : BTreeMap String (BTreeMap String BaseState)

/-! ## Observing the units on disk -/

/-- What `reconcile` makes of a unit that is present with `digest`: a new unit is
revision 1, a changed or resurrected one goes up by one, and an unchanged one is
left alone. -/
def observe (me : String) (entry : Option ItemState) (digest : String) : ItemState :=
  match entry with
  | none => { digest, rev := 1, device := me, deleted := false }
  | some entry =>
    if entry.deleted || entry.digest != digest then
      { digest, rev := next_rev entry.rev, device := me, deleted := false }
    else entry

/-- Whether `observe` changed anything. -/
def observe_changes (entry : Option ItemState) (digest : String) : Bool :=
  match entry with
  | none => true
  | some entry => entry.deleted || entry.digest != digest

/-- Whether `reconcile` buries the entry under `key`: it is live, its unit is gone,
and its kind may be deleted by going away. -/
def vanished (present : BTreeMap String String) (tombstones_for : String → Bool)
    (key : String) (entry : ItemState) : Bool :=
  !entry.deleted && !present.contains key && tombstones_for key

variable (self : SyncState)

/-- `SyncState::reconcile`: folds the units present on disk into the sidecar and
buries the ones that vanished. The flag says whether anything changed. -/
def SyncState.reconcile (present : BTreeMap String String)
    (tombstones_for : String → Bool) : SyncState × Bool :=
  let me := self.device
  let seen := upsert_all (observe me) present self.items
  let items := seen.map fun key entry =>
    if vanished present tombstones_for key entry then entry.bury me else entry
  let changed :=
    present.toList.any (fun p => observe_changes self.items[p.1]? p.2)
      || seen.toList.any (fun p => vanished present tombstones_for p.1 p.2)
  ({ self with items }, changed)

/-- `SyncState::set_item`. -/
def SyncState.set_item (key : String) (state : ItemState) : SyncState :=
  { self with items := self.items.insert key state }

/-- `SyncState::set_base`. -/
def SyncState.set_base (peer key : String) (base : BaseState) : SyncState :=
  { self with
    peers := self.peers.alter peer fun bases => some ((bases.getD ∅).insert key base) }

/-- `peer_bases`: the bases agreed with one remote machine, empty before the first
sync with it. -/
def SyncState.peer_bases (peer : String) : BTreeMap String BaseState :=
  self.peers[peer]?.getD ∅

/-- `received_state`: the entry and the base to store after writing a received
unit. What was written differs from what came in only where a merge kept keys of
this machine; it is then a local edit above both revisions, and the base stays the
sender's state. -/
def received_state (incoming_digest : String) (incoming_rev : ℕ) (incoming_device : String)
    (incoming_deleted : Bool) (stored_digest : String) (local_rev : ℕ)
    (self_device : String) : ItemState × BaseState :=
  let base : BaseState :=
    { rev := incoming_rev, digest := incoming_digest, deleted := incoming_deleted }
  let item : ItemState :=
    if incoming_deleted then
      { digest := "", rev := incoming_rev, device := incoming_device, deleted := true }
    else if stored_digest = incoming_digest then
      { digest := stored_digest, rev := incoming_rev, device := incoming_device,
        deleted := false }
    else
      { digest := stored_digest, rev := next_rev (max local_rev incoming_rev),
        device := self_device, deleted := false }
  (item, base)

/-! ## What the operations leave under a key -/

variable (s : SyncState)

variable (present : BTreeMap String String)

variable (tombstones_for : String → Bool)

/-- The entry `reconcile` leaves under a key: what it observes when the unit is
there, a tombstone when it vanished, and the old entry otherwise. -/
theorem reconcile_items_get (key : String) :
    (s.reconcile present tombstones_for).1.items[key]?
      = match present[key]? with
        | some digest => some (observe s.device s.items[key]? digest)
        | none => s.items[key]?.map fun entry =>
            if vanished present tombstones_for key entry then entry.bury s.device else entry := by
  simp only [SyncState.reconcile, Std.TreeMap.getElem?_map, upsert_all_get]
  cases hp : present[key]? with
  | none => rfl
  | some digest =>
    have hin : present.contains key = true := by
      rw [Std.TreeMap.contains_eq_isSome_getElem?, hp]; rfl
    simp [vanished, hin]

@[simp] theorem reconcile_device : (s.reconcile present tombstones_for).1.device = s.device := rfl

theorem set_item_get (key k : String) (state : ItemState) :
    (s.set_item key state).items[k]? = if key = k then some state else s.items[k]? := by
  simp [SyncState.set_item, Std.TreeMap.getElem?_insert]

/-- A recorded base is read back, and no other unit's base is touched. -/
theorem set_base_get (peer key k : String) (base : BaseState) :
    ((s.set_base peer key base).peer_bases peer)[k]?
      = if key = k then some base else (s.peer_bases peer)[k]? := by
  simp [SyncState.set_base, SyncState.peer_bases, Std.TreeMap.getElem?_insert]

end Lpm.Sync
