/-
The mobile settings in `remote.json`: one file, and the saves and refreshes of one process.

A save never writes what the process remembers. It reads the file again, keeps the settings
the process owns, takes everything else from the file and applies the change that is asked
for. Only a file that is not there yet is taken from memory. How a configuration stands in
the file is the serializer's, `Serde`; what is relied on is `Serde.Lawful`.
-/
import Lpm.Lib.RustText

set_option autoImplicit false

open RustText

namespace Lpm.RemoteStore

/-- The file as this build reads it. A device is whatever a pairing records: the store
copies the list and looks into none of them. `extra` is what a newer build wrote and this
one does not know. -/
structure RemoteConfig (δ ν : Type) where
  enabled : Bool
  port : UInt16
  pairing_code : Str
  pairing_code_armed_at : Int
  pairing_code_by_peer : Bool
  tailscale : Bool
  push_relay : Str
  keep_awake : Bool
  server_id : Option Str
  dev_server_id : Option Str
  devices : List δ
  revoked_phones : List Str
  extra : List (Str × ν)
  deriving DecidableEq

def RemoteConfig.default {δ ν : Type} : RemoteConfig δ ν where
  enabled := false
  port := 0
  pairing_code := []
  pairing_code_armed_at := 0
  pairing_code_by_peer := false
  tailscale := true
  push_relay := []
  keep_awake := false
  server_id := none
  dev_server_id := none
  devices := []
  revoked_phones := []
  extra := []

/-- The settings a process owns. -/
structure Settings where
  enabled : Bool
  port : UInt16
  tailscale : Bool
  push_relay : Str
  keep_awake : Bool
  server_id : Option Str
  dev_server_id : Option Str

/-- What the processes that use one file have in common. -/
structure Shared (δ ν : Type) where
  devices : List δ
  revoked_phones : List Str
  pairing_code : Str
  pairing_code_armed_at : Int
  pairing_code_by_peer : Bool
  extra : List (Str × ν)

variable {Raw δ ν τ : Type}

def RemoteConfig.settings (cfg : RemoteConfig δ ν) : Settings where
  enabled := cfg.enabled
  port := cfg.port
  tailscale := cfg.tailscale
  push_relay := cfg.push_relay
  keep_awake := cfg.keep_awake
  server_id := cfg.server_id
  dev_server_id := cfg.dev_server_id

def RemoteConfig.shared (cfg : RemoteConfig δ ν) : Shared δ ν where
  devices := cfg.devices
  revoked_phones := cfg.revoked_phones
  pairing_code := cfg.pairing_code
  pairing_code_armed_at := cfg.pairing_code_armed_at
  pairing_code_by_peer := cfg.pairing_code_by_peer
  extra := cfg.extra

/-- Why a read failed. -/
inductive ReadError where
  | NotFound
  | other (e : String)

/-- What reading the file gives. -/
abbrev File (Raw : Type) : Type := Except ReadError Raw

/-- The serializer: `serde_json` over the derived instances. -/
structure Serde (Raw δ ν : Type) where
  from_slice : Raw → Option (RemoteConfig δ ν)
  to_vec_pretty : RemoteConfig δ ν → Except String Raw
  is_empty : Raw → Bool

/-- What is written reads back, and there is nothing in an empty file to parse. -/
structure Serde.Lawful (c : Serde Raw δ ν) : Prop where
  reads_back : ∀ {cfg data}, c.to_vec_pretty cfg = .ok data → c.from_slice data = some cfg
  empty : ∀ {raw}, c.is_empty raw = true → c.from_slice raw = none

variable (c : Serde Raw δ ν)

/-! ## Reading -/

def read_config : File Raw → Option (RemoteConfig δ ν)
  | .ok raw => c.from_slice raw
  | .error _ => none

def load_config (file : File Raw) : RemoteConfig δ ν := (read_config c file).getD .default

/-- What a change builds on. -/
inductive Base (Raw δ ν : Type) where
  | Disk (cfg : RemoteConfig δ ν) (raw : Raw)
  | FirstRun
  | Unusable (e : String)

inductive StoreError where
  | Unusable (m : String)
  | Write (m : String)

def read_base (path : String) : File Raw → Base Raw δ ν
  | .ok raw =>
    if c.is_empty raw then .FirstRun
    else match c.from_slice raw with
      | some cfg => .Disk cfg raw
      | none => .Unusable
        ("the mobile settings file at " ++ path ++ " is damaged, so nothing was changed")
  | .error .NotFound => .FirstRun
  | .error (.other e) =>
    .Unusable ("could not read the mobile settings file at " ++ path ++ ": " ++ e)

/-! ## Saving -/

def rebase_owned_settings (next mem : RemoteConfig δ ν) : RemoteConfig δ ν :=
  { next with
    enabled := mem.enabled
    port := mem.port
    tailscale := mem.tailscale
    push_relay := mem.push_relay
    keep_awake := mem.keep_awake
    server_id := mem.server_id.or next.server_id
    dev_server_id := mem.dev_server_id.or next.dev_server_id }

/-- The bytes that are put in place, or none where the file holds just these already. `io`
is what the disk answers. -/
def write_config_unless_same [DecidableEq Raw] (cfg : RemoteConfig δ ν)
    (unchanged_from : Option Raw) (io : Except String Unit) : Except String (Option Raw) := do
  let data ← c.to_vec_pretty cfg
  if unchanged_from = some data then
    return none
  io
  return some data

/-- What the change is applied to, before the settings are put on top, and the bytes it was
read from. -/
def Base.start (current : RemoteConfig δ ν) :
    Base Raw δ ν → Except StoreError (RemoteConfig δ ν × Option Raw)
  | .Disk cfg raw => .ok (cfg, some raw)
  | .FirstRun => .ok (current, none)
  | .Unusable e => .error (.Unusable e)

/-- A change declines by giving nothing. -/
abbrev Change (τ δ ν : Type) : Type := RemoteConfig δ ν → Option (τ × RemoteConfig δ ν)

/-! ## Refreshing -/

/-- The devices and the removed phones of the file, every setting left alone. -/
def RemoteConfig.adopt (cfg disk : RemoteConfig δ ν) : RemoteConfig δ ν :=
  { cfg with devices := disk.devices, revoked_phones := disk.revoked_phones }

/-! ## What each of these leaves alone -/

section
variable {c : Serde Raw δ ν} {path : String} {file : File Raw} {cfg mem disk next : RemoteConfig δ ν}

@[simp] theorem adopt_settings : (mem.adopt disk).settings = mem.settings := rfl

/-- Settings put on top of a configuration without any common part of its own are the
configuration they come from. -/
theorem rebase_default (h : mem.shared = (RemoteConfig.default : RemoteConfig δ ν).shared) :
    rebase_owned_settings .default mem = mem := by
  cases mem
  cases h
  simp [rebase_owned_settings, RemoteConfig.default]

theorem rebase_self : rebase_owned_settings mem mem = mem := by
  cases mem
  simp [rebase_owned_settings]

theorem read_base_disk {raw : Raw} (h : read_base c path file = .Disk cfg raw) :
    file = .ok raw ∧ load_config c file = cfg := by
  unfold read_base at h
  split at h
  · next bytes =>
    split at h
    · cases h
    · split at h
      · next found =>
        cases h
        refine ⟨rfl, ?_⟩
        rw [load_config, read_config, found]
        rfl
      · cases h
  · cases h
  · cases h

theorem read_base_first (hc : c.Lawful) (h : read_base c path file = .FirstRun) :
    load_config c file = .default := by
  unfold read_base at h
  split at h
  · next bytes =>
    split at h
    · next hempty =>
      rw [load_config, read_config, hc.empty hempty]
      rfl
    · split at h <;> cases h
  · rfl
  · cases h

theorem read_base_unusable {e : String} (h : read_base c path file = .Unusable e) :
    load_config c file = .default := by
  unfold read_base at h
  split at h
  · next bytes =>
    split at h
    · cases h
    · split at h
      · cases h
      · next lost =>
        rw [load_config, read_config, lost]
        rfl
  · cases h
  · rfl

/-- A file that was written is one to build on. -/
theorem read_base_written (hc : c.Lawful) {data : Raw} (h : c.to_vec_pretty cfg = .ok data) :
    read_base c path (.ok data) = .Disk cfg data := by
  have hback := hc.reads_back h
  have hfull : ¬ c.is_empty data = true := by
    intro hempty
    rw [hc.empty hempty] at hback
    cases hback
  simp only [read_base, hback, if_neg hfull]

variable [DecidableEq Raw]

theorem write_ok {unchanged_from data : Option Raw} {io : Except String Unit}
    (h : write_config_unless_same c cfg unchanged_from io = .ok data) :
    ∃ bytes, c.to_vec_pretty cfg = .ok bytes ∧
      (unchanged_from = some bytes ∧ data = none ∨ data = some bytes) := by
  unfold write_config_unless_same at h
  cases hdata : c.to_vec_pretty cfg with
  | error e =>
    rw [hdata] at h
    cases h
  | ok bytes =>
    rw [hdata] at h
    refine ⟨bytes, rfl, ?_⟩
    by_cases hsame : unchanged_from = some bytes
    · left
      simp only [hsame, ↓reduceIte, bind, Except.bind, pure, Except.pure] at h
      exact ⟨hsame, (Except.ok.inj h).symm⟩
    · right
      cases io with
      | error e => simp [hsame, bind, Except.bind] at h
      | ok u =>
        simp only [hsame, ↓reduceIte, bind, Except.bind, pure, Except.pure] at h
        exact (Except.ok.inj h).symm

end

end Lpm.RemoteStore
