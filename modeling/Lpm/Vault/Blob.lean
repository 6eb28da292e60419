/-
The bytes of a vault key file, and what is read back from them.

The key stands in the file bare, or wrapped under a passphrase in the envelope an export
has. `serde_json`, `base64`, `argon2` and `aes_gcm` are the crates the vault stands on: they
are parameters here, and `Crates.Lawful` says what is counted on.

A key that was written is read back by whoever has the passphrase it was written under,
and nothing is said of the others.
-/
import Lpm.Lib.Fallible

set_option autoImplicit false

open Fallible

namespace Lpm.Vault

abbrev Bytes := List UInt8

def KEY_LEN : ℕ := 32

abbrev Key := { bytes : Bytes // bytes.length = KEY_LEN }

def EXPORT_VERSION : UInt32 := 1
def EXPORT_KIND : String := "lpm-vault-key"
def ARGON2_MEMORY : UInt32 := 64 * 1024
def ARGON2_TIME : UInt32 := 3
def ARGON2_PAR : UInt32 := 4
def SALT_LEN : ℕ := 16
def NONCE_LEN : ℕ := 12
def KDF_ALGO : String := "argon2id"
def ENC_ALGO : String := "aes-256-gcm"
def AAD_PREFIX : Bytes := [108, 112, 109, 45, 118, 97, 117, 108, 116]

def PASSPHRASE_ENV : String := "LPM_VAULT_PASSPHRASE"
def LOCAL_VERSION : UInt32 := 1
def LOCAL_KIND : String := "lpm-vault-key-local"
def WRAPPED_KIND : String := "lpm-vault-key"

inductive VaultError where
  | Denied
  | WrongPassphrase
  | EmptyPassphrase
  | KeyConflict
  | NotFound
  | Other (message : String)
  deriving DecidableEq, Repr

/-- How a call ends that brings no result: with an error, or with the thread. -/
inductive Stop where
  | error (e : VaultError)
  | panicked (message : String)
  deriving DecidableEq, Repr

structure Kdf where
  alg : String
  salt : String
  m : UInt32
  t : UInt32
  p : UInt32
  l : UInt32
  deriving DecidableEq, Repr

structure Enc where
  alg : String
  nonce : String
  ciphertext : String
  deriving DecidableEq, Repr

structure ExportedKey where
  v : UInt32
  kind : String
  kdf : Kdf
  enc : Enc
  deriving DecidableEq, Repr

structure LocalKey where
  v : UInt32
  kind : String
  key : String
  deriving DecidableEq, Repr

/-- The crates the vault stands on. `probe` is the string under `kind` of bytes read as any
JSON value, `debug` what `{:?}` prints of a string. -/
structure Crates where
  probe : Bytes → Except String (Option String)
  write_local : LocalKey → Except String Bytes
  read_local : Bytes → Except String LocalKey
  write_exported : ExportedKey → Except String Bytes
  read_exported : Bytes → Except String ExportedKey
  encode : Bytes → String
  decode : String → Except String Bytes
  params (m t p : UInt32) : Except String Unit
  hash_password_into (passphrase : String) (salt : Bytes) (m t p : UInt32) : Except String Key
  encrypt (kek : Key) (nonce aad msg : Bytes) : Option Bytes
  decrypt (kek : Key) (nonce aad ciphertext : Bytes) : Option Bytes
  debug : String → String

/-- What was written is read back, and what was sealed is opened under the same key. -/
structure Crates.Lawful (c : Crates) : Prop where
  probe_local : ∀ l b, c.write_local l = .ok b → c.probe b = .ok (some l.kind)
  read_local : ∀ l b, c.write_local l = .ok b → c.read_local b = .ok l
  probe_exported : ∀ e b, c.write_exported e = .ok b → c.probe b = .ok (some e.kind)
  read_exported : ∀ e b, c.write_exported e = .ok b → c.read_exported b = .ok e
  decode : ∀ b, c.decode (c.encode b) = .ok b
  decrypt : ∀ kek nonce aad msg ciphertext, c.encrypt kek nonce aad msg = some ciphertext →
    c.decrypt kek nonce aad ciphertext = some msg

/-- What the system's random source gives for one wrapping. -/
structure Random where
  salt : Except String { b : Bytes // b.length = SALT_LEN }
  nonce : Except String { b : Bytes // b.length = NONCE_LEN }

/-- `map_err` to an error of the vault, with the cause after the text. -/
def context {α : Type} (text : String) (x : Except String α) : Except VaultError α :=
  x.mapError fun e => .Other (text ++ e)

variable (c : Crates)

def argon2_kek (passphrase : String) (salt : Bytes) (m t p l : UInt32) : Except VaultError Key := do
  if l.toNat ≠ KEY_LEN then
    throw (.Other ("vault: unsupported key length " ++ toString l.toNat))
  let _ ← context "vault: argon2 params: " (c.params m t p)
  context "vault: argon2: " (c.hash_password_into passphrase salt m t p)

def wrap_key (rand : Random) (passphrase : String) (key : Key) : Except VaultError Bytes := do
  let salt ← context "vault: rand salt: " rand.salt
  let kek ← argon2_kek c passphrase salt.1 ARGON2_MEMORY ARGON2_TIME ARGON2_PAR (.ofNat KEY_LEN)
  let nonce ← context "vault: rand nonce: " rand.nonce
  match c.encrypt kek nonce.1 AAD_PREFIX key.1 with
  | none => throw (.Other "vault: seal export")
  | some ciphertext =>
    context "vault: marshal export: " (c.write_exported {
      v := EXPORT_VERSION
      kind := EXPORT_KIND
      kdf := {
        alg := KDF_ALGO
        salt := c.encode salt.1
        m := ARGON2_MEMORY
        t := ARGON2_TIME
        p := ARGON2_PAR
        l := .ofNat KEY_LEN }
      enc := { alg := ENC_ALGO, nonce := c.encode nonce.1, ciphertext := c.encode ciphertext } })

/-- The checks on the fields of an export that name what it is. -/
def check_export (ek : ExportedKey) : Except VaultError Unit := do
  if ek.v ≠ EXPORT_VERSION then
    throw (.Other ("vault: unsupported export version " ++ toString ek.v.toNat))
  if ek.kind ≠ EXPORT_KIND then
    throw (.Other ("vault: unexpected export kind " ++ c.debug ek.kind))
  if ek.kdf.alg ≠ KDF_ALGO then
    throw (.Other ("vault: unsupported kdf " ++ c.debug ek.kdf.alg))
  if ek.enc.alg ≠ ENC_ALGO then
    throw (.Other ("vault: unsupported cipher " ++ c.debug ek.enc.alg))
  if ek.kdf.l.toNat ≠ KEY_LEN then
    throw (.Other ("vault: unsupported key length " ++ toString ek.kdf.l.toNat))

/-- What is decoded of an export: the salt, the nonce, the ciphertext and the key it is
sealed under. -/
def open_export (passphrase : String) (ek : ExportedKey) :
    Except VaultError (Bytes × Bytes × Key) := do
  let salt ← context "vault: bad salt: " (c.decode ek.kdf.salt)
  let nonce ← context "vault: bad nonce: " (c.decode ek.enc.nonce)
  let ciphertext ← context "vault: bad ciphertext: " (c.decode ek.enc.ciphertext)
  let kek ← argon2_kek c passphrase salt ek.kdf.m ek.kdf.t ek.kdf.p ek.kdf.l
  return (nonce, ciphertext, kek)

/-- The key in the bytes that were decrypted. -/
def sized (text : ℕ → String) (plain : Bytes) : Except VaultError Key :=
  if h : plain.length = KEY_LEN then .ok ⟨plain, h⟩ else .error (.Other (text plain.length))

def unwrap_key (passphrase : String) (data : Bytes) : Except Stop Key :=
  let opened := do
    let ek ← context "vault: parse export: " (c.read_exported data)
    check_export c ek
    open_export c passphrase ek
  match opened with
  | .error e => .error (.error e)
  | .ok (nonce, ciphertext, kek) =>
    -- the length is taken for granted: `expect`
    if nonce.length ≠ NONCE_LEN then .error (.panicked "nonce is 12 bytes")
    else match c.decrypt kek nonce AAD_PREFIX ciphertext with
      | none => .error (.error .WrongPassphrase)
      | some plain =>
        (sized (fun n => "vault: decrypted key has wrong length " ++ toString n) plain).mapError
          .error

/-- Under an empty passphrase, as without one, the key is stored bare. -/
def passphrase (env : Option String) : Option String := env.filter (· ≠ "")

def encode_blob (rand : Random) (key : Key) (passphrase : Option String) :
    Except VaultError Bytes :=
  match passphrase with
  | some p => wrap_key c rand p key
  | none =>
    context "vault: marshal key file: "
      (c.write_local { v := LOCAL_VERSION, kind := LOCAL_KIND, key := c.encode key.1 })

def decode_local (bytes : Bytes) : Except VaultError Key := do
  let parsed ← context "vault: parse key file: " (c.read_local bytes)
  if parsed.v ≠ LOCAL_VERSION then
    throw (.Other ("vault: unsupported key file version " ++ toString parsed.v.toNat))
  let raw ← context "vault: bad key file encoding: " (c.decode parsed.key)
  sized (fun _ => "vault: key file holds a wrong-length key") raw

def decode_blob (bytes : Bytes) (passphrase : Option String) : Except Stop Key :=
  match context "vault: parse key file: " (c.probe bytes) with
  | .error e => .error (.error e)
  | .ok probe =>
    let kind := probe.getD ""
    if kind = WRAPPED_KIND then
      match passphrase with
      | none => .error (.error (.Other
          ("vault: key file is passphrase-protected — set " ++ PASSPHRASE_ENV)))
      | some p => unwrap_key c p bytes
    else if kind = LOCAL_KIND then (decode_local c bytes).mapError .error
    else .error (.error (.Other ("vault: unexpected key file kind " ++ c.debug kind)))

/-! ## What was written is read back -/

section
variable {c : Crates}

@[simp] theorem context_of_ok {α : Type} (text : String) (a : α) :
    context text (.ok a) = .ok a := rfl

theorem context_ok {α : Type} {text : String} {x : Except String α} {a : α}
    (h : context text x = .ok a) : x = .ok a := by
  rcases x with e | b
  · cases h
  · exact congrArg _ (Except.ok.inj h)

@[simp] theorem ok_bind {ε α β : Type} (a : α) (f : α → Except ε β) :
    (Except.ok a >>= f) = f a := rfl

theorem sized_key (text : ℕ → String) (key : Key) : sized text key.1 = .ok key := dif_pos key.2

/-- What went into a wrapping. -/
theorem wrap_key_ok {rand : Random} {p : String} {key : Key} {blob : Bytes}
    (h : wrap_key c rand p key = .ok blob) :
    ∃ (salt nonce ciphertext : Bytes) (kek : Key), nonce.length = NONCE_LEN ∧
      argon2_kek c p salt ARGON2_MEMORY ARGON2_TIME ARGON2_PAR (.ofNat KEY_LEN) = .ok kek ∧
      c.encrypt kek nonce AAD_PREFIX key.1 = some ciphertext ∧
      c.write_exported ⟨EXPORT_VERSION, EXPORT_KIND,
        ⟨KDF_ALGO, c.encode salt, ARGON2_MEMORY, ARGON2_TIME, ARGON2_PAR, .ofNat KEY_LEN⟩,
        ⟨ENC_ALGO, c.encode nonce, c.encode ciphertext⟩⟩ = .ok blob := by
  obtain ⟨salt, hsalt, h⟩ := bind_ok h
  obtain ⟨kek, hkek, h⟩ := bind_ok h
  obtain ⟨nonce, hnonce, h⟩ := bind_ok h
  cases hct : c.encrypt kek nonce.1 AAD_PREFIX key.1 with
  | none =>
    rw [hct] at h
    cases h
  | some ciphertext =>
    rw [hct] at h
    exact ⟨salt.1, nonce.1, ciphertext, kek, nonce.2, hkek, hct, context_ok h⟩

/-- The passphrase a key was wrapped under opens it. -/
theorem unwrap_wrap (hc : c.Lawful) {rand : Random} {p : String} {key : Key} {blob : Bytes}
    (h : wrap_key c rand p key = .ok blob) : unwrap_key c p blob = .ok key := by
  obtain ⟨salt, nonce, ciphertext, kek, hnonce, hkek, hct, hblob⟩ := wrap_key_ok h
  have hopen : open_export c p ⟨EXPORT_VERSION, EXPORT_KIND,
      ⟨KDF_ALGO, c.encode salt, ARGON2_MEMORY, ARGON2_TIME, ARGON2_PAR, .ofNat KEY_LEN⟩,
      ⟨ENC_ALGO, c.encode nonce, c.encode ciphertext⟩⟩ = .ok (nonce, ciphertext, kek) := by
    simp only [open_export, hc.decode, context_of_ok, ok_bind, hkek]
    rfl
  have hcheck : check_export c ⟨EXPORT_VERSION, EXPORT_KIND,
      ⟨KDF_ALGO, c.encode salt, ARGON2_MEMORY, ARGON2_TIME, ARGON2_PAR, .ofNat KEY_LEN⟩,
      ⟨ENC_ALGO, c.encode nonce, c.encode ciphertext⟩⟩ = .ok () := rfl
  simp only [unwrap_key, hc.read_exported _ _ hblob, context_of_ok, ok_bind, hcheck, hopen]
  rw [if_neg (not_not.mpr hnonce), hc.decrypt _ _ _ _ _ hct]
  dsimp only
  rw [sized_key]
  rfl

/-- A key file is read by whoever has the passphrase it was written under. -/
theorem decode_encode (hc : c.Lawful) {rand : Random} {key : Key} {p : Option String}
    {blob : Bytes} (h : encode_blob c rand key p = .ok blob) : decode_blob c blob p = .ok key := by
  cases p with
  | some p =>
    obtain ⟨salt, nonce, ciphertext, kek, -, -, -, hblob⟩ := wrap_key_ok h
    rw [decode_blob, hc.probe_exported _ _ hblob]
    exact unwrap_wrap hc h
  | none =>
    have hblob := context_ok h
    rw [decode_blob, hc.probe_local _ _ hblob]
    have hlocal : decode_local c blob = .ok key := by
      simp only [decode_local, hc.read_local _ _ hblob, context_of_ok, ok_bind, hc.decode]
      rw [if_neg (not_not.mpr rfl)]
      exact sized_key _ key
    change (if LOCAL_KIND = WRAPPED_KIND then _ else if LOCAL_KIND = LOCAL_KIND then _ else _) = _
    rw [if_neg (by decide), if_pos rfl, hlocal]
    rfl

end

end Lpm.Vault
