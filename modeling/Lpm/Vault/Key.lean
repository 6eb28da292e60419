/-
One key for life: the vault key in a file, and the calls that get, create and import it.

A call goes through the file in steps, and any number of calls of any processes go at once.
Whether there is a file is one step and putting one in place another, a rename that takes
the place of whatever is there. So a call that saw no file may replace one that came
between. `Unseen` is said of the step that does it: nobody has put a file in place since
this call looked. Where it holds of every rename, the first key stays.
-/
import Lpm.Lib.Transition
import Lpm.Vault.Blob

set_option autoImplicit false

open Transition

namespace Lpm.Vault

/-- Why a file that is there is not read. -/
inductive ReadFault where
  | permission_denied
  | other (e : String)

/-- A key on its way into the file: one just created, or one imported. The environment is
that of the process. -/
structure Storing where
  env : Option String
  importing : Bool
  key : Key

/-- Where a call stands. -/
inductive Call where
  | unused
  | fetches_key (env : Option String)
  | fetches_import (env : Option String) (key : Key)
  | generates (env : Option String)
  | stores (o : Storing)
  | writes (o : Storing)
  | renames (o : Storing) (blob : Bytes)
  | key_returned (env : Option String) (result : Except Stop Key)
  | import_refused (e : Stop)
  | import_returned (env : Option String) (key : Key) (result : Except Stop Unit)

/-- What a call does next, with what the system answers: its random numbers, whether it can
stat and read the file, and what becomes of its own writes. -/
inductive Act where
  | key (env : Option String)
  | import_key (env : Option String) (passphrase : String) (data : Bytes)
  | fetch (fault : Option ReadFault)
  | generate (rand : Except String Key)
  | exists_ (stat : Bool)
  | temp (rand : Random) (dir file : Except String Unit)
  | rename (io : Except String Unit)

variable (c : Crates) (lpm_dir : String) (env : Option String)

def fetch_key (file : Option Bytes) (fault : Option ReadFault) :
    Except Stop Key :=
  match fault, file with
  | some .permission_denied, _ => .error (.error .Denied)
  | some (.other e), _ => .error (.error (.Other ("vault: read key file: " ++ e)))
  | none, none => .error (.error .NotFound)
  | none, some bytes => decode_blob c bytes (passphrase env)

/-- `key` once it has fetched. -/
def key : Except Stop Key → Call
  | .error (.error .NotFound) => .generates env
  | fetched => .key_returned env fetched

/-- `import_key` up to its fetch. -/
def import_key (passphrase : String) (data : Bytes) : Call :=
  if passphrase = "" then .import_refused (.error .EmptyPassphrase)
  else match unwrap_key c passphrase data with
    | .error e => .import_refused e
    | .ok key => .fetches_import env key

/-- `import_key` once it has fetched: any error but a panic is taken for no key. -/
def import_fetched (key : Key) : Except Stop Key → Call
  | .ok existing =>
    .import_returned env key (if existing = key then .ok () else .error (.error .KeyConflict))
  | .error (.error _) => .stores { env, importing := true, key }
  | .error (.panicked e) => .import_returned env key (.error (.panicked e))

variable (o : Storing)

/-- The call returns with the key in the file. -/
def Storing.done : Call :=
  if o.importing then .import_returned o.env o.key (.ok ()) else .key_returned o.env (.ok o.key)

def Storing.fails (e : VaultError) : Call :=
  if o.importing then .import_returned o.env o.key (.error (.error e))
  else .key_returned o.env (.error (.error e))

/-- `write_key` from the check that there is no file to the file that is to be renamed. -/
def prepare (rand : Random) (dir file : Except String Unit) :
    Except VaultError Bytes := do
  let blob ← encode_blob c rand o.key (passphrase o.env)
  context ("vault: create " ++ c.debug lpm_dir ++ ": ") dir
  context "vault: write key file: " file
  return blob

/-- One step of a call, and the file after it. -/
def act (file : Option Bytes) : Call → Act → Option (Call × Option Bytes)
  | .unused, .key env => some (.fetches_key env, file)
  | .unused, .import_key env passphrase data => some (import_key c env passphrase data, file)
  | .fetches_key env, .fetch fault => some (key env (fetch_key c env file fault), file)
  | .fetches_import env k, .fetch fault =>
    some (import_fetched env k (fetch_key c env file fault), file)
  | .generates env, .generate rand =>
    match context "vault: generate key: " rand with
    | .error e => some (.key_returned env (.error (.error e)), file)
    | .ok key => some (.stores { env, importing := false, key }, file)
  | .stores o, .exists_ stat =>
    -- a path that cannot be looked at does not exist
    if stat && file.isSome then some (o.fails .Denied, file) else some (.writes o, file)
  | .writes o, .temp rand dir temp =>
    match prepare c lpm_dir o rand dir temp with
    | .error e => some (o.fails e, file)
    | .ok blob => some (.renames o blob, file)
  | .renames o blob, .rename (.ok ()) => some (o.done, some blob)
  | .renames o _, .rename (.error e) =>
    some (o.fails (.Other ("vault: write key file: " ++ e)), file)
  | _, _ => none

/-- The calls and the file. `overtaken` is kept for the account: a file was put in place
since the call looked for one. -/
structure State (ι : Type) where
  file : Option Bytes
  calls : ι → Call
  overtaken : ι → Bool

variable {ι : Type} [DecidableEq ι]

def overtakes (overtaken : ι → Bool) (i : ι) : Act → ι → Bool
  | .exists_ _ => Function.update overtaken i false
  | .rename (.ok ()) => fun _ => true
  | _ => overtaken

def step (s : State ι) (e : ι × Act) : Option (State ι) :=
  (act c lpm_dir s.file (s.calls e.1) e.2).map fun (call, file) =>
    { file, calls := Function.update s.calls e.1 call, overtaken := overtakes s.overtaken e.1 e.2 }

/-- Any calls over a file that holds anything or is not there. -/
def vault (file : Option Bytes) : System (State ι) (ι × Act) where
  init s := s.file = file ∧ ∀ i, s.calls i = .unused
  step s e s' := step c lpm_dir s e = some s'

/-- The process can tell that there is no file, and no file was put in place since. -/
def Unseen (s : State ι) : ι × Act → Prop
  | (_, .exists_ stat) => stat = true ∨ s.file = none
  | (i, .rename (.ok ())) => s.overtaken i = false
  | _ => True

/-- The file gives the key to the process. -/
def Holds (env : Option String) (file : Option Bytes) (key : Key) : Prop :=
  ∃ bytes, file = some bytes ∧ decode_blob c bytes (passphrase env) = .ok key

/-- The key a call brought home. -/
def Call.given : Call → Option (Option String × Key)
  | .key_returned env (.ok key) => some (env, key)
  | .import_returned env key (.ok ()) => some (env, key)
  | _ => none

/-- The call has looked for a file and not put one in place yet. -/
def Call.between : Call → Bool
  | .writes _ => true
  | .renames _ _ => true
  | _ => false

/-! ## What a step does -/

section
variable {c : Crates} {lpm_dir : String} {file file' : Option Bytes} {call call' : Call} {a : Act}
variable {o : Storing} {blob : Bytes} {env : Option String} {k : Key}

@[simp] theorem Storing.fails_given (e : VaultError) : (o.fails e).given = none := by
  unfold Storing.fails
  split_ifs <;> rfl

@[simp] theorem Storing.done_given : o.done.given = some (o.env, o.key) := by
  unfold Storing.done
  split_ifs <;> rfl

@[simp] theorem Storing.fails_between (e : VaultError) : (o.fails e).between = false := by
  unfold Storing.fails
  split_ifs <;> rfl

@[simp] theorem Storing.done_between : o.done.between = false := by
  unfold Storing.done
  split_ifs <;> rfl

theorem fetch_key_holds {fault : Option ReadFault} (h : fetch_key c env file fault = .ok k) :
    Holds c env file k := by
  unfold fetch_key at h
  split at h
  · cases h
  · cases h
  · cases h
  · exact ⟨_, rfl, h⟩

theorem prepare_ok {rand : Random} {dir temp : Except String Unit}
    (h : prepare c lpm_dir o rand dir temp = .ok blob) :
    encode_blob c rand o.key (passphrase o.env) = .ok blob := by
  obtain ⟨blob', hblob, h⟩ := Fallible.bind_ok h
  obtain ⟨-, -, h⟩ := Fallible.bind_ok h
  obtain ⟨-, -, h⟩ := Fallible.bind_ok h
  rw [hblob, Except.ok.inj h]

@[simp] theorem import_key_given (p : String) (data : Bytes) :
    (import_key c env p data).given = none := by
  unfold import_key
  split_ifs
  · rfl
  · cases unwrap_key c p data <;> rfl

@[simp] theorem import_key_between (p : String) (data : Bytes) :
    (import_key c env p data).between = false := by
  unfold import_key
  split_ifs
  · rfl
  · cases unwrap_key c p data <;> rfl

theorem key_given {env' : Option String} {fetched : Except Stop Key}
    (h : (key env fetched).given = some (env', k)) : env = env' ∧ fetched = .ok k := by
  unfold key at h
  split at h
  · cases h
  · cases fetched with
    | error e => cases h
    | ok k =>
      cases h
      exact ⟨rfl, rfl⟩

@[simp] theorem key_between (fetched : Except Stop Key) : (key env fetched).between = false := by
  unfold key
  split <;> rfl

theorem import_fetched_given {env' : Option String} {key : Key} {fetched : Except Stop Key}
    (h : (import_fetched env key fetched).given = some (env', k)) :
    env = env' ∧ fetched = .ok k := by
  unfold import_fetched at h
  split at h
  · split_ifs at h with heq
    · cases h
      rw [heq]
      exact ⟨rfl, rfl⟩
    · cases h
  · cases h
  · cases h

@[simp] theorem import_fetched_between (key : Key) (fetched : Except Stop Key) :
    (import_fetched env key fetched).between = false := by
  unfold import_fetched
  split <;> rfl

/-- What a step may do, as far as keys and the file go. -/
inductive Took (c : Crates) (file : Option Bytes) (call : Call) (a : Act) :
    Call → Option Bytes → Prop
  /-- The call has no file at hand and touches none. -/
  | aside {call' : Call} (hgiven : ∀ env k, call'.given = some (env, k) → Holds c env file k)
      (hbetween : call'.between = false) (hrename : a ≠ .rename (.ok ())) :
      Took c file call a call' file
  | looked (o : Storing) (stat : Bool) (ha : a = .exists_ stat) (hfile : stat = true → file = none) :
      Took c file call a (.writes o) file
  | filled (o : Storing) (blob : Bytes) (rand : Random) (hcall : call = .writes o)
      (hlook : ∀ stat, a ≠ .exists_ stat) (hrename : a ≠ .rename (.ok ()))
      (hblob : encode_blob c rand o.key (passphrase o.env) = .ok blob) :
      Took c file call a (.renames o blob) file
  | put (o : Storing) (blob : Bytes) (hcall : call = .renames o blob) (ha : a = .rename (.ok ())) :
      Took c file call a o.done (some blob)

theorem act_took (h : act c lpm_dir file call a = some (call', file')) :
    Took c file call a call' file' := by
  unfold act at h
  split at h
  · cases h
    exact .aside (fun _ _ h => nomatch h) rfl (fun h => nomatch h)
  · cases h
    exact .aside (fun _ _ h => by simp at h) (by simp) (fun h => nomatch h)
  · cases h
    refine .aside (fun env' k h => ?_) (by simp) (fun h => nomatch h)
    obtain ⟨rfl, hfetched⟩ := key_given h
    exact fetch_key_holds hfetched
  · cases h
    refine .aside (fun env' k h => ?_) (by simp) (fun h => nomatch h)
    obtain ⟨rfl, hfetched⟩ := import_fetched_given h
    exact fetch_key_holds hfetched
  · split at h <;>
    · cases h
      exact .aside (fun _ _ h => nomatch h) rfl (fun h => nomatch h)
  · split_ifs at h with hsaw
    · cases h
      exact .aside (fun _ _ h => by simp at h) (by simp) (fun h => nomatch h)
    · cases h
      refine .looked _ _ rfl fun hstat => ?_
      rw [hstat, Bool.true_and] at hsaw
      simpa using hsaw
  · split at h
    · cases h
      exact .aside (fun _ _ h => by simp at h) (by simp) (fun h => nomatch h)
    next hprepare =>
      cases h
      exact .filled _ _ _ rfl (fun _ h => nomatch h) (fun h => nomatch h) (prepare_ok hprepare)
  · cases h
    exact .put _ _ rfl rfl
  · cases h
    exact .aside (fun _ _ h => by simp at h) (by simp) (fun h => nomatch h)
  · cases h

end

end Lpm.Vault
