/-
The pairings of a machine and the operations that change them: the config that `peer.rs` and
`peerclient.rs` share.

The machines that may connect here are `host.devices`, those this one connects to `peers`.
Each operation changes the config with its lock held and clones it there, and writes the clone
to `peer.json` with the lock given back. Values that are drawn at random or come from outside
(a token's hash, an id, a time, what a host reports) are arguments here.
-/
import Lpm.Lib.Copies
import Lpm.Lib.Utf8
import Mathlib.Tactic.FinCases

set_option autoImplicit false

open RustText Utf8 Copies

namespace Lpm.Pairings

/-! ## The config -/

structure PeerDevice where
  id : Str
  name : Str := []
  token_sha256 : Str := []
  slug_assigned : Str := []
  created_at : ℤ := 0
  platform : Str := []
  host_id : Str := []
  deriving DecidableEq

structure HostConfig where
  enabled : Bool := false
  lan : Bool := false
  bind_address : Str := []
  port : ℕ := 0
  pairing_code : Str := []
  devices : List PeerDevice := []
  revoked : List Str := []
  deriving DecidableEq

structure PeerEntry where
  slug : Str
  «alias» : Str := []
  host : Str := []
  addrs : List Str := []
  port : ℕ := 0
  device_id : Str := []
  token : Str := []
  host_id : Str := []
  tls_fp : Option Str := none
  enabled : Bool := true
  last_sync_at : ℤ := 0
  platform : Str := []
  headless : Option Bool := none
  version : Str := []
  phone_server_id : Str := []
  deriving DecidableEq

structure PeerConfig where
  host : HostConfig := {}
  peers : List PeerEntry := []
  deriving DecidableEq

def LOOPBACK : Str := "127.0.0.1".toList

/-- How many removed devices a machine remembers. -/
def REVOKED_DEVICES_MAX : ℕ := 64

def MAX_ADDRS : ℕ := 8

def HostConfig.revoke (host : HostConfig) (id : Str) : HostConfig :=
  if id = [] ∨ id ∈ host.revoked then host
  else
    let revoked := host.revoked ++ [id]
    { host with revoked := revoked.drop (revoked.length - REVOKED_DEVICES_MAX) }

/-! ## Pairing -/

def is_ascii_alphanumeric (c : Char) : Bool :=
  ('a' ≤ c && c ≤ 'z') || ('A' ≤ c && c ≤ 'Z') || ('0' ≤ c && c ≤ '9')

/-- The code as it is compared: what was typed, without its dashes and in upper case. -/
def normalize_code (s : Str) : Str := (s.filter is_ascii_alphanumeric).map Char.toUpper

/-- Comparison in constant time. -/
def ct_eq (a b : List UInt8) : Bool :=
  if a.length ≠ b.length then false
  else (a.zip b).foldl (fun diff p => diff ||| (p.1 ^^^ p.2)) 0 == 0

/-- What is drawn for a new device. -/
structure Minted where
  token_sha256 : Str
  slug : Str
  id : Str
  created_at : ℤ

/-- `mint_device`, where `replaces` names the record that goes and leaves its slug. -/
def mint_device (minted : Minted) (name platform : Str) (replaces : Option Str) :
    Turn PeerConfig := fun cfg =>
  let previous := replaces.bind fun id => cfg.host.devices.find? fun d => d.id = id
  let devices := match previous with
    | some d => cfg.host.devices.eraseP fun e => e.id = d.id
    | none => cfg.host.devices
  let device : PeerDevice := {
    id := minted.id, name := name.take 64, token_sha256 := minted.token_sha256
    slug_assigned := (previous.map PeerDevice.slug_assigned).getD minted.slug
    created_at := minted.created_at, platform := platform.take 16 }
  .changes { cfg with host := { cfg.host with devices := devices ++ [device] } } true

/-- The first half of `pair_device`: the code is used up, if it is the right one. -/
def use_code (code : Str) : Turn PeerConfig := fun cfg =>
  let expected := normalize_code cfg.host.pairing_code
  if expected = [] ∨ ct_eq (as_bytes expected) (as_bytes (normalize_code code)) = false then .leaves
  else .changes { cfg with host := { cfg.host with pairing_code := [] } } true

def note_device_host_id (id host_id : Str) : Turn PeerConfig := fun cfg =>
  if host_id = [] then .leaves
  else match cfg.host.devices.findIdx? fun d => d.id = id with
    | none => .leaves
    | some i =>
      match cfg.host.devices[i]? with
      | none => .leaves
      | some device =>
        if device.host_id = host_id then .leaves
        else
          let devices := cfg.host.devices.set i { device with host_id := host_id.take 64 }
          .changes { cfg with host := { cfg.host with devices } } true

/-! ## The host's settings -/

def peer_host_set_config (enabled : Bool) (port : ℕ) (lan : Bool) : Turn PeerConfig := fun cfg =>
  .changes { cfg with host := { cfg.host with enabled, port, lan } } true

/-- `arm_pairing_code`, the part of `start_pairing` that changes the config. -/
def arm_pairing_code (code : Str) (bind : Option Str) : Turn PeerConfig := fun cfg =>
  let host := { cfg.host with pairing_code := code, enabled := true }
  let host := match bind with
    | some addr => { host with bind_address := addr, lan := decide (addr ≠ LOOPBACK) }
    | none => host
  .changes { cfg with host } true

def cancel_pairing : Turn PeerConfig := fun cfg =>
  .changes { cfg with host := { cfg.host with pairing_code := [] } } true

def remove_device (id : Str) (block : Bool) : Turn PeerConfig := fun cfg =>
  let host := { cfg.host with devices := cfg.host.devices.filter fun d => d.id ≠ id }
  .changes { cfg with host := if block then host.revoke id else host } true

/-! ## The machines this one connects to -/

/-- `cfg.peers.iter_mut().find(|p| p.slug == slug)`, changed by a function. -/
def edit_peer (cfg : PeerConfig) (slug : Str) (edit : PeerEntry → PeerEntry) : PeerConfig :=
  match cfg.peers.findIdx? fun p => p.slug = slug with
  | none => cfg
  | some i => { cfg with peers := cfg.peers.modify i edit }

def persist_tls_fp (slug fp : Str) : Turn PeerConfig := fun cfg =>
  match cfg.peers.find? fun p => p.slug = slug with
  | none => .leaves
  | some p =>
    if p.tls_fp = some fp then .leaves
    else .changes (edit_peer cfg slug fun p => { p with tls_fp := some fp }) true

/-- What a host says about itself: a text it leaves out is empty. -/
structure HostReport where
  host_platform : Str
  host_version : Str
  phone_server_id : Str
  host_addrs : Option (List Str)
  host_headless : Option Bool

variable (local_ip : Str → Bool)

/-- The addresses of a report that are worth dialling. Whether a text is an IP address that is
loopback or unspecified is `local_ip`. -/
def usable_addrs (addrs : List Str) (host : Str) : List Str :=
  addrs.foldl (fun out addr =>
    let addr := trim addr
    let is_local := eq_ignore_ascii_case addr "localhost".toList || local_ip addr
    if out.length = MAX_ADDRS then out
    else if addr = [] ∨ is_local = true ∨ addr = host ∨ addr ∈ out then out
    else out ++ [addr]) []

/-- A field takes what is reported, if something is. -/
def report_field (field value : Str) : Str := if value = [] then field else value

/-- `apply_host_report`, which says by its result whether the entry changed. -/
def apply_host_report (p : PeerEntry) (ready : HostReport) : PeerEntry :=
  { p with
    platform := report_field p.platform ready.host_platform
    version := report_field p.version ready.host_version
    phone_server_id := report_field p.phone_server_id ready.phone_server_id
    addrs := match ready.host_addrs with
      | some list => usable_addrs local_ip list p.host
      | none => p.addrs
    headless := ready.host_headless }

variable (slug : Str)

def persist_host_report (ready : HostReport) :
    Turn PeerConfig := fun cfg =>
  match cfg.peers.find? fun p => p.slug = slug with
  | none => .leaves
  | some p =>
    if apply_host_report local_ip p ready = p then .leaves
    else .changes (edit_peer cfg slug fun p => apply_host_report local_ip p ready) true

/-- The last lines of `sync_run`: the time is noted, and the config is saved in any case. -/
def note_sync (now : ℤ) : Turn PeerConfig := fun cfg =>
  .changes (edit_peer cfg slug fun p => { p with last_sync_at := now }) true

/-- A machine that was paired with is added; the config is not saved yet. -/
def push_peer (entry : PeerEntry) : Turn PeerConfig := fun cfg =>
  .changes { cfg with peers := cfg.peers ++ [entry] } false

/-- The places of the entries that `slug`'s newest one takes the place of. -/
def superseded (peers : List PeerEntry) (slug : Str) : List ℕ :=
  match (peers.reverse.findIdx? fun p => p.slug = slug).map fun i => peers.length - 1 - i with
  | none => []
  | some newest =>
    match peers[newest]? with
    | none => []
    | some p =>
      (peers.zipIdx.filter fun (q, i) =>
        decide (i ≠ newest) && (decide (q.slug = slug) ||
          (decide (p.host_id ≠ []) && decide (q.host_id = p.host_id)))).map Prod.snd

def keep_newest : Turn PeerConfig := fun cfg =>
  let drop_at := superseded cfg.peers slug
  let peers := (cfg.peers.zipIdx.filter fun (_, i) => decide (i ∉ drop_at)).map Prod.fst
  .changes { cfg with peers } true

/-! ## The operations -/

inductive Operation where
  | pair_device (code name platform : Str) (replaces : Option Str) (minted : Minted)
  | approve_device (name platform : Str) (replaces : Option Str) (minted : Minted)
  | note_device_host_id (id host_id : Str)
  | set_config (enabled : Bool) (port : ℕ) (lan : Bool)
  | start_pairing (code : Str) (bind : Option Str)
  | cancel_pairing
  | remove_device (id : Str) (block : Bool)
  | persist_tls_fp (slug fp : Str)
  | persist_host_report (slug : Str) (ready : HostReport)
  | sync_run (slug : Str) (now : ℤ)
  | add_peer (entry : PeerEntry)

/-- The turns of an operation with the config's lock. -/
def Operation.turns : Operation → List (Turn PeerConfig)
  | pair_device code name platform replaces minted =>
    [use_code code, mint_device minted name platform replaces]
  | approve_device name platform replaces minted => [mint_device minted name platform replaces]
  | note_device_host_id id host_id => [Pairings.note_device_host_id id host_id]
  | set_config enabled port lan => [peer_host_set_config enabled port lan]
  | start_pairing code bind => [arm_pairing_code code bind]
  | cancel_pairing => [Pairings.cancel_pairing]
  | remove_device id block => [Pairings.remove_device id block]
  | persist_tls_fp slug fp => [Pairings.persist_tls_fp slug fp]
  | persist_host_report slug ready => [Pairings.persist_host_report local_ip slug ready]
  | sync_run slug now => [note_sync slug now]
  | add_peer entry => [push_peer entry, keep_newest entry.slug]

/-! ## On disk and in memory

A clone of the config is written after the lock is given back, so an older clone can be
written over a newer one: then the file keeps a device that was removed, or a code that was
used, and a restart brings it back. Where the clones are written in the order in which they
were taken, nothing of this can happen. -/

open RustText Copies Transition

/-! ## The turns -/

section
variable (cfg : PeerConfig)

theorem use_code_saved (code : Str) : (use_code code cfg).Saved := by
  rw [use_code]
  split <;> trivial

theorem note_device_host_id_saved (id host_id : Str) : (note_device_host_id id host_id cfg).Saved := by
  rw [note_device_host_id]
  by_cases hempty : host_id = []
  · rw [if_pos hempty]
    trivial
  rw [if_neg hempty]
  split
  · trivial
  · split
    · trivial
    · split <;> trivial

theorem persist_tls_fp_saved (slug fp : Str) : (persist_tls_fp slug fp cfg).Saved := by
  rw [persist_tls_fp]
  split
  · trivial
  · split <;> trivial

theorem persist_host_report_saved (local_ip : Str → Bool) (slug : Str) (ready : HostReport) :
    (persist_host_report local_ip slug ready cfg).Saved := by
  rw [persist_host_report]
  split
  · trivial
  · split <;> trivial

end

variable (local_ip : Str → Bool)

/-- Only a machine that is added is there before it is saved, and then the next turn saves. -/
theorem turns_fair (op : Operation) : Fair (op.turns local_ip) := by
  have hone : ∀ turn : Turn PeerConfig, (∀ cfg, (turn cfg).Saved) → Fair [turn] :=
    fun turn h => fair_saved (by simpa using h)
  cases op with
  | pair_device code name platform replaces minted =>
    refine fair_saved fun turn hturn cfg => ?_
    rcases List.mem_pair.mp hturn with rfl | rfl
    · exact use_code_saved cfg code
    · rfl
  | note_device_host_id id host_id => exact hone _ fun cfg => note_device_host_id_saved cfg id host_id
  | persist_tls_fp slug fp => exact hone _ fun cfg => persist_tls_fp_saved cfg slug fp
  | persist_host_report slug ready =>
    exact hone _ fun cfg => persist_host_report_saved cfg local_ip slug ready
  | add_peer entry => exact ⟨fun _ _ _ v => ⟨_, rfl⟩, fair_saved fun t ht v => by
      rw [List.mem_singleton.mp ht]
      rfl⟩
  | approve_device _ _ _ _ | set_config _ _ _ | start_pairing _ _ | cancel_pairing | remove_device _ _
  | sync_run _ _ => exact hone _ fun _ => rfl

/-! ## The file -/

/-- The operations on the shared config, any number of them at a time and in any order. -/
def system : System (State PeerConfig) (Event Operation) :=
  Copies.system (Operation.turns local_ip)

/-- Where every clone is written before the next one that was taken, the file is the config
whenever nothing is going on, and a restart changes nothing. -/
theorem config_is_on_disk {local_ip : Str → Bool} {s : State PeerConfig}
    (h : Reachable ((system local_ip).when InOrder) s) (hidle : s.Idle) :
    s.file = s.value ∧
      ∀ s', s.step (Operation.turns local_ip) .restart = some s' → s'.value = s.value := by
  have hfile : s.file = s.value :=
    (fresh_of_reachable (turns_fair local_ip) h).saved_when_idle hidle
  refine ⟨hfile, fun s' hs' => ?_⟩
  cases hs'
  exact hfile

/-- A machine that one device is paired with. -/
def with_device : PeerConfig := { host := { devices := [{ id := ['d'] }] } }

/-- The device tells its host id, and is removed meanwhile. -/
def removed_meanwhile : List (Event Operation) :=
  [.start 0 (.note_device_host_id ['d'] ['h']), .start 1 (.remove_device ['d'] true),
    .turn 0, .copy 0, .release 0, .turn 1, .copy 1, .release 1]

theorem config_is_on_disk_removed :
    ∃ s, Reachable ((system fun _ => false).when InOrder) s ∧ s.Idle ∧ s.value.host.devices = [] ∧
      s.file = s.value := by
  have hstart : Reachable ((system fun _ => false).when InOrder)
      { value := with_device, file := with_device } := .start ⟨_, rfl⟩
  have hcopies : Reachable ((system fun _ => false).when InOrder) _ :=
    hstart.run_when (fun _ _ _ h => h)
      (fun e he s => by fin_cases he <;> exact trivial)
      (rfl : removed_meanwhile.foldlM (State.step (Operation.turns fun _ => false)) _ = some _)
  have hfirst := reachable_write (i := 0) hcopies rfl rfl
  have hsecond := reachable_write (i := 1) hfirst rfl rfl
  refine ⟨_, hsecond, ?idle, rfl, (config_is_on_disk hsecond ?idle).1⟩
  intro i
  rcases i with _ | _ | i <;> rfl

/-- The older clone is written last: a device that was removed is back after a restart. -/
theorem removed_device_is_back :
    ∃ s s', Reachable (system fun _ => false) s ∧ s.Idle ∧ s.value.host.devices = [] ∧
      s.file ≠ s.value ∧ s.step (Operation.turns fun _ => false) .restart = some s' ∧
      ∃ d ∈ s'.value.host.devices, d.id = ['d'] := by
  have hstart : Reachable (system fun _ => false)
      { value := with_device, file := with_device } := .start ⟨_, rfl⟩
  have hrun : Reachable (system fun _ => false) _ :=
    hstart.run (fun _ _ _ h => h)
      (rfl : (removed_meanwhile ++ [Event.write 1, Event.write 0]).foldlM
        (State.step (Operation.turns fun _ => false)) _ = some _)
  refine ⟨_, _, hrun, fun i => ?_, rfl, by decide, rfl, _, List.mem_singleton_self _, rfl⟩
  rcases i with _ | _ | i <;> rfl

end Lpm.Pairings
