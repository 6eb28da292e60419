/-
The first key stays: every order of the steps in which no file is put in place unseen.

What carries the proof is that a call between its look and its rename, if nobody put a file
in place meanwhile, still finds none. Such a rename creates the file and replaces nothing,
so every key that was read from the file, or put there, goes on being the one it holds.
-/
import Lpm.Vault.Key

set_option autoImplicit false

open Transition

namespace Lpm.Vault

open Function

section
variable {ι : Type} {overtaken : ι → Bool} {i j : ι} {a : Act}

theorem Holds.mono {c : Crates} {env : Option String} {file file' : Option Bytes} {k : Key}
    (h : Holds c env file k) (hkeep : ∀ b, file = some b → file' = some b) :
    Holds c env file' k := by
  obtain ⟨bytes, hfile, hdecode⟩ := h
  exact ⟨bytes, hkeep bytes hfile, hdecode⟩

theorem Holds.unique {c : Crates} {env : Option String} {file : Option Bytes} {k k' : Key}
    (h : Holds c env file k) (h' : Holds c env file k') : k = k' := by
  obtain ⟨bytes, hfile, hdecode⟩ := h
  obtain ⟨bytes', hfile', hdecode'⟩ := h'
  obtain rfl : bytes = bytes' := Option.some.inj (hfile.symm.trans hfile')
  exact Except.ok.inj (hdecode.symm.trans hdecode')

variable [DecidableEq ι]

/-- A step that puts nothing in place overtakes nobody else. -/
theorem overtakes_other (hne : j ≠ i) (ha : a ≠ .rename (.ok ())) :
    overtakes overtaken i a j = overtaken j := by
  unfold overtakes
  split
  · exact update_of_ne hne _ _
  · exact absurd rfl ha
  · rfl

/-- Nor does it change what is known of the call itself, unless it looks again. -/
theorem overtakes_self (hlook : ∀ stat, a ≠ .exists_ stat) (ha : a ≠ .rename (.ok ())) :
    overtakes overtaken i a i = overtaken i := by
  unfold overtakes
  split
  · exact absurd rfl (hlook _)
  · exact absurd rfl ha
  · rfl

end

section
variable {ι : Type} [DecidableEq ι] {c : Crates} {lpm_dir : String}

structure Inv (c : Crates) (s : State ι) : Prop where
  absent : ∀ i, (s.calls i).between = true → s.overtaken i = false → s.file = none
  blob : ∀ i o blob, s.calls i = .renames o blob →
    decode_blob c blob (passphrase o.env) = .ok o.key
  given : ∀ i env k, (s.calls i).given = some (env, k) → Holds c env s.file k

omit [DecidableEq ι] in
theorem inv_init {s : State ι} (h : ∀ i, s.calls i = .unused) : Inv c s := by
  refine ⟨fun i hi _ => ?_, fun i o blob hi => ?_, fun i env k hi => ?_⟩ <;>
  · rw [h i] at hi
    cases hi

variable {s s' : State ι} {e : ι × Act}

theorem step_took (h : step c lpm_dir s e = some s') :
    ∃ call, Took c s.file (s.calls e.1) e.2 call s'.file ∧
      s'.calls = Function.update s.calls e.1 call ∧
      s'.overtaken = overtakes s.overtaken e.1 e.2 := by
  obtain ⟨⟨call, file⟩, hact, rfl⟩ := Option.map_eq_some_iff.mp h
  exact ⟨call, act_took hact, rfl, rfl⟩

/-- A file that is there stays as it is. -/
theorem step_keeps_file (hi : Inv c s) (hunseen : Unseen s e) (h : step c lpm_dir s e = some s') :
    ∀ b, s.file = some b → s'.file = some b := by
  intro b hb
  obtain ⟨i, a⟩ := e
  obtain ⟨call, htook, -, -⟩ := step_took h
  generalize hfile' : s'.file = file' at htook
  cases htook with
  | aside => exact hb
  | looked => exact hb
  | filled => exact hb
  | put o blob hcall ha =>
    -- the call looked and was not overtaken, so there is no file
    dsimp only at ha hcall
    subst ha
    have hnone := hi.absent i (by rw [hcall]; rfl) hunseen
    rw [hnone] at hb
    cases hb

theorem step_inv (hc : c.Lawful) (hi : Inv c s) (hunseen : Unseen s e)
    (h : step c lpm_dir s e = some s') : Inv c s' := by
  have hkeep := step_keeps_file hi hunseen h
  obtain ⟨i, a⟩ := e
  obtain ⟨call, htook, hcalls, hovertaken⟩ := step_took h
  dsimp only at htook hcalls hovertaken
  -- a step is one call's, and the others stand where they stood
  refine ⟨fun j hj hnot => ?_, fun j o blob hj => ?_, fun j env k hj => ?_⟩
  · rw [hovertaken] at hnot
    rw [hcalls] at hj
    generalize s'.file = file' at htook
    by_cases hji : j = i
    · subst hji
      rw [update_self] at hj
      cases htook with
      | aside _ hbetween _ =>
        rw [hbetween] at hj
        cases hj
      | looked o stat ha hfile =>
        subst ha
        -- a call that has just looked saw that there is no file
        exact Or.elim hunseen hfile id
      | filled o blob rand hcall hlook hrename _ =>
        rw [overtakes_self hlook hrename] at hnot
        exact hi.absent j (by rw [hcall]; rfl) hnot
      | put o blob hcall ha =>
        rw [Storing.done_between] at hj
        cases hj
    · rw [update_of_ne hji] at hj
      cases htook with
      | aside _ _ hrename | filled o blob rand hcall hlook hrename _ =>
        rw [overtakes_other hji hrename] at hnot
        exact hi.absent j hj hnot
      | looked o stat ha hfile =>
        rw [overtakes_other hji (by rw [ha]; exact fun h => nomatch h)] at hnot
        exact hi.absent j hj hnot
      | put o blob hcall ha =>
        subst ha
        cases hnot
  · rw [hcalls] at hj
    by_cases hji : j = i
    · subst hji
      rw [update_self] at hj
      generalize s'.file = file' at htook
      cases htook with
      | aside _ hbetween _ =>
        rw [hj] at hbetween
        cases hbetween
      | looked => cases hj
      | filled o blob rand _ _ _ hblob =>
        cases hj
        -- what it is to put in place was just written of its key
        exact decode_encode hc hblob
      | put o blob hcall ha =>
        have hbetween := congrArg Call.between hj
        rw [Storing.done_between] at hbetween
        cases hbetween
    · rw [update_of_ne hji] at hj
      exact hi.blob j o blob hj
  · rw [hcalls] at hj
    by_cases hji : j = i
    · subst hji
      rw [update_self] at hj
      generalize hfile' : s'.file = file' at htook
      cases htook with
      | aside hgiven _ _ => exact hgiven env k hj
      | looked => cases hj
      | filled => cases hj
      | put o blob hcall ha =>
        rw [Storing.done_given] at hj
        cases hj
        -- the file gives it the key it has put there
        exact ⟨blob, rfl, hi.blob j o blob hcall⟩
    · rw [update_of_ne hji] at hj
      exact (hi.given j env k hj).mono hkeep

theorem reachable_inv (hc : c.Lawful) {file : Option Bytes}
    (h : Reachable ((vault c lpm_dir file).when Unseen) s) : Inv c s := by
  induction h with
  | start h0 => exact inv_init h0.2
  | next _ hs ih => exact step_inv hc ih hs.1 hs.2

/-- A use of the key when there is one takes it from the file. -/
theorem step_reads {i : ι} {env : Option String} {k : Key} (hcall : s.calls i = .fetches_key env)
    (hholds : Holds c env s.file k) : step c lpm_dir s (i, .fetch none) =
      some { s with calls := Function.update s.calls i (.key_returned env (.ok k)) } := by
  obtain ⟨bytes, hfile, hdecode⟩ := hholds
  have hfetch : fetch_key c env s.file none = .ok k := by
    rw [hfile]
    exact hdecode
  rw [step, hcall, act, hfetch]
  rfl

/-- Where no file is put in place unseen, whatever is in the file at the start or comes to be
in it stays, and every key a call returned or imported is the one the file gives. -/
theorem one_key_for_life (hc : c.Lawful) {file : Option Bytes}
    (h : Reachable ((vault c lpm_dir file).when Unseen) s) :
    (∀ b, file = some b → s.file = some b) ∧
      (∀ e s', Unseen s e → step c lpm_dir s e = some s' → ∀ b, s.file = some b → s'.file = some b) ∧
      (∀ i env k, s.calls i = .key_returned env (.ok k) → Holds c env s.file k) ∧
      ∀ i env k, s.calls i = .import_returned env k (.ok ()) → Holds c env s.file k := by
  have hi := reachable_inv hc h
  refine ⟨fun b hb => ?_, fun e s' hunseen hs => step_keeps_file hi hunseen hs,
    fun i env k hk => hi.given i env k (by rw [hk]; rfl),
    fun i env k hk => hi.given i env k (by rw [hk]; rfl)⟩
  clear hi
  induction h with
  | start h0 => exact h0.1.trans hb
  | next h hs ih => exact step_keeps_file (reachable_inv hc h) hs.1 hs.2 b ih

end

/-! ## Two first uses at once -/

def zeros : Key := ⟨List.replicate 32 0, rfl⟩
def ones : Key := ⟨List.replicate 32 1, rfl⟩

def zeros_text : String := "AAAAAAAAAAAAAAAAAAAAAAAAAAAAAAAAAAAAAAAAAAA="
def ones_text : String := "AQEBAQEBAQEBAQEBAQEBAQEBAQEBAQEBAQEBAQEBAQE="

def bare (text : String) : LocalKey := { v := LOCAL_VERSION, kind := LOCAL_KIND, key := text }

def bare_bytes (text : String) : Bytes :=
  ("\x7b\n  \"v\": 1,\n  \"kind\": \"lpm-vault-key-local\",\n  \"key\": \"" ++ text ++
    "\"\n\x7d").toList.map fun ch => .ofNat ch.toNat

/-- The crates on two keys stored bare. -/
def plain : Crates where
  probe b := if b = bare_bytes zeros_text ∨ b = bare_bytes ones_text then .ok (some LOCAL_KIND)
    else .error "expected value at line 1 column 1"
  write_local l := if l = bare zeros_text ∨ l = bare ones_text then .ok (bare_bytes l.key)
    else .error "key must be a string"
  read_local b :=
    if b = bare_bytes zeros_text then .ok (bare zeros_text)
    else if b = bare_bytes ones_text then .ok (bare ones_text)
    else .error "expected value at line 1 column 1"
  write_exported _ := .error "key must be a string"
  read_exported _ := .error "expected value at line 1 column 1"
  encode b :=
    if b = zeros.1 then zeros_text else if b = ones.1 then ones_text
    else .ofList ('-' :: b.map fun byte => .ofNat byte.toNat)
  decode s :=
    if s = zeros_text then .ok zeros.1 else if s = ones_text then .ok ones.1
    else .ok (s.toList.tail.map fun ch => .ofNat ch.toNat)
  params _ _ _ := .ok ()
  hash_password_into _ _ _ _ _ := .error "memory is too little"
  encrypt _ _ _ _ := none
  decrypt _ _ _ _ := none
  debug s := "\"" ++ s ++ "\""

theorem plain_write {l : LocalKey} {b : Bytes} (h : plain.write_local l = .ok b) :
    l = bare zeros_text ∧ b = bare_bytes zeros_text ∨
      l = bare ones_text ∧ b = bare_bytes ones_text := by
  have hif : (if l = bare zeros_text ∨ l = bare ones_text then .ok (bare_bytes l.key)
      else .error "key must be a string" : Except String Bytes) = .ok b := h
  split_ifs at hif with hl
  · rw [← Except.ok.inj hif]
    rcases hl with rfl | rfl
    · exact .inl ⟨rfl, rfl⟩
    · exact .inr ⟨rfl, rfl⟩

theorem plain_decode (b : Bytes) : plain.decode (plain.encode b) = .ok b := by
  by_cases hz : b = zeros.1
  · subst hz
    decide
  by_cases ho : b = ones.1
  · subst ho
    decide
  have hencode : plain.encode b = .ofList ('-' :: b.map fun byte => .ofNat byte.toNat) := by
    change ite _ _ (ite _ _ _) = _
    rw [if_neg hz, if_neg ho]
  have hhead : ∀ t : String, t.toList.head? ≠ some '-' → plain.encode b ≠ t := by
    rintro t ht rfl
    exact ht (by rw [hencode, String.toList_ofList]; rfl)
  change ite _ _ (ite _ _ _) = _
  rw [if_neg (hhead _ (by decide)), if_neg (hhead _ (by decide)), hencode, String.toList_ofList,
    List.tail_cons, List.map_map]
  congr 1
  refine List.map_id'' (fun byte => ?_) b
  have hvalid : byte.toNat.isValidChar := .inl (by have := byte.toNat_lt; omega)
  have hchar : (Char.ofNat byte.toNat).toNat = byte.toNat := by
    rw [Char.ofNat, dif_pos hvalid]
    rfl
  rw [comp_apply, hchar, UInt8.ofNat_toNat]

theorem plain_lawful : plain.Lawful where
  probe_local l b h := by
    rcases plain_write h with ⟨rfl, rfl⟩ | ⟨rfl, rfl⟩
    · decide
    · decide
  read_local l b h := by
    rcases plain_write h with ⟨rfl, rfl⟩ | ⟨rfl, rfl⟩
    · decide
    · decide
  probe_exported _ _ h := nomatch h
  read_exported _ _ h := nomatch h
  decode := plain_decode
  decrypt _ _ _ _ _ h := nomatch h

/-- A first use of the key up to its rename. -/
def first_use (i : Bool) (key : Key) : List (Bool × Act) :=
  [(i, .key none), (i, .fetch none), (i, .generate (.ok key)), (i, .exists_ true),
    (i, .temp ⟨.error "", .error ""⟩ (.ok ()) (.ok ()))]

def unused : State Bool := ⟨none, fun _ => .unused, fun _ => false⟩

/-- Both calls see no file, and both put theirs in place. -/
def at_once : List (Bool × Act) :=
  first_use false zeros ++ first_use true ones ++
    [(false, .rename (.ok ())), (true, .rename (.ok ()))]

theorem ones_held : Holds plain none (some (bare_bytes ones_text)) ones := ⟨_, rfl, by decide⟩

/-- The first call has returned a key that is nowhere. -/
theorem second_key_over_first : ∃ s, Reachable (vault plain "/home/dev/.lpm" none) s ∧
    s.calls false = .key_returned none (.ok zeros) ∧
    s.calls true = .key_returned none (.ok ones) ∧
    Holds plain none s.file ones ∧ ¬Holds plain none s.file zeros := by
  have hrun : ∃ s, at_once.foldlM (step plain "/home/dev/.lpm") unused = some s ∧
      s.calls false = .key_returned none (.ok zeros) ∧
      s.calls true = .key_returned none (.ok ones) ∧ s.file = some (bare_bytes ones_text) :=
    ⟨_, rfl, rfl, rfl, rfl⟩
  obtain ⟨s, hs, hfirst, hsecond, hfile⟩ := hrun
  have hreach : Reachable (vault plain "/home/dev/.lpm" none) unused :=
    .start ⟨rfl, fun _ => rfl⟩
  refine ⟨s, hreach.run (fun _ _ _ h => h) hs, hfirst, hsecond, ?_, ?_⟩
  · rw [hfile]
    exact ones_held
  · intro hzeros
    rw [hfile] at hzeros
    exact absurd (hzeros.unique ones_held) (by decide)

/-- Two first uses and a later one. The second looks for a file when the first has put its
key in place, and is refused. -/
theorem one_key_for_life_first_use : ∃ s : State (Fin 3),
    s.calls 0 = .key_returned none (.ok ones) ∧
      s.calls 1 = .key_returned none (.error (.error .Denied)) ∧
      s.calls 2 = .key_returned none (.ok ones) ∧ Holds plain none s.file ones ∧
      ∀ k, Holds plain none s.file k → k = ones := by
  have h : Reachable ((vault plain "/home/dev/.lpm" none).when Unseen)
      (⟨none, fun _ => .unused, fun _ => false⟩ : State (Fin 3)) :=
    .start ⟨rfl, fun _ => rfl⟩
  have h := h.next (a := (0, Act.key none)) ⟨trivial, rfl⟩
  have h := h.next (a := (1, Act.key none)) ⟨trivial, rfl⟩
  have h := h.next (a := (0, Act.fetch none)) ⟨trivial, rfl⟩
  have h := h.next (a := (1, Act.fetch none)) ⟨trivial, rfl⟩
  have h := h.next (a := (0, Act.generate (.ok ones))) ⟨trivial, rfl⟩
  have h := h.next (a := (1, Act.generate (.ok zeros))) ⟨trivial, rfl⟩
  have h := h.next (a := (0, Act.exists_ true)) ⟨.inl rfl, rfl⟩
  have h := h.next (a := (0, Act.temp ⟨.error "", .error ""⟩ (.ok ()) (.ok ()))) ⟨trivial, rfl⟩
  have h := h.next (a := (0, Act.rename (.ok ()))) ⟨rfl, rfl⟩
  have h := h.next (a := (1, Act.exists_ true)) ⟨.inl rfl, rfl⟩
  have h := h.next (a := (2, Act.key none)) ⟨trivial, rfl⟩
  have h := h.next (a := (2, Act.fetch none)) ⟨trivial, step_reads rfl ones_held⟩
  have hholds := (one_key_for_life plain_lawful h).2.2.1 2 none ones rfl
  exact ⟨_, rfl, rfl, rfl, hholds, fun k hk => hk.unique hholds⟩

end Lpm.Vault
