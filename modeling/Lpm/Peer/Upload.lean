/-
The host half of a file attach (`peeruploadhost.rs`): a file comes in pieces, and each is
appended to a file in a folder that was made for the upload.

`chunk`, `finish` and `abort` hold the registry's lock from end to end. What `begin` does outside
it is in a folder that nobody else knows of. Off Windows a name is kept as it is.
-/
import Lpm.Lib.Transition
import Lpm.Lib.RustText
import Mathlib.Data.List.AList

set_option autoImplicit false

open RustText Transition

namespace Lpm.Peer.Upload

open Function List Option

abbrev Bytes := List UInt8

def MAX_UPLOAD_BYTES : ℕ := 1024 * 1024 * 1024

def UPLOAD_TTL_MS : ℤ := 10 * 60 * 1000

def EXPIRED : String := "that upload expired — start it again"

/-- A file in an upload's folder. -/
structure Path where
  dir : Str
  name : Str
  deriving DecidableEq

structure Incoming where
  path : Path
  bytes : ℕ
  received : ℕ
  touched_at : ℤ

def Incoming.is_stale (up : Incoming) (now : ℤ) : Bool := now - up.touched_at > UPLOAD_TTL_MS

/-- The registry, and what is in the upload folders. `sent` and `held` are no part of the program:
what the accepted pieces of each upload carried, and its file unless it was aborted or expired. -/
structure Host where
  reg : AList fun _ : String => Incoming
  disk : Path → Option Bytes
  sent : String → Bytes
  held : String → Option Path

/-- The name is chosen by the sender, so it is reduced to a basename. -/
def safe_basename (name : Str) : Str :=
  ((file_name (trim name)).filter fun s => s ≠ []).getD "file".toList

namespace Host

variable (h : Host) (id : String)

def get : Option Incoming := h.reg.lookup id

def abort : Host :=
  match h.get id with
  | none => h
  | some up =>
    { h with
        reg := h.reg.erase id
        disk := update h.disk up.path none
        held := update h.held id none }

def reap_expired (now : ℤ) : Host :=
  ((h.reg.entries.filter fun x => x.2.is_stale now).map Sigma.fst).foldl abort h

/-- `dir` is named by random bytes, `upload_id` is random too, and `made` says whether the folder
and the file in it could be made. -/
def begin (name : Str) (bytes : ℕ) (dir : Str) (upload_id : String) (now touched_at : ℤ)
    (made : Except String Unit) : Host × Except String String :=
  let h := h.reap_expired now
  if bytes > MAX_UPLOAD_BYTES then
    (h, .error ("that file is too large to send (" ++ toString (bytes / (1024 * 1024)) ++ " MB)"))
  else
    match made with
    | .error e => (h, .error e)
    | .ok () =>
      let path := ⟨dir, safe_basename name⟩
      ({ reg := h.reg.insert upload_id { path, bytes, received := 0, touched_at }
         disk := update h.disk path (some [])
         sent := update h.sent upload_id []
         held := update h.held upload_id (some path) }, .ok upload_id)

/-- `fails` says after how many bytes the write of the piece fails, if it does. -/
def chunk (offset : ℕ) (b64 : Except String Bytes) (fails : Option (ℕ × String))
    (now : ℤ) : Host × Except String ℕ :=
  match b64 with
  | .error e => (h, .error ("damaged transfer: " ++ e))
  | .ok bytes =>
    match h.get id with
    | none => (h, .error EXPIRED)
    | some up =>
      -- appending is the whole write path
      let append (piece : Bytes) := update h.disk up.path ((h.disk up.path).map (· ++ piece))
      if offset ≠ up.received then
        (h, .error "that upload arrived out of order — start it again")
      else if up.received + bytes.length > up.bytes then
        (h, .error "that upload sent more than it said it would")
      else
        match fails with
        | some (wrote, e) =>
          ({ h with disk := append (bytes.take wrote) }, .error ("write file: " ++ e))
        | none =>
          let received := up.received + bytes.length
          ({ h with
              reg := h.reg.insert id { up with received, touched_at := now }
              disk := append bytes
              sent := update h.sent id (h.sent id ++ bytes) }, .ok received)

/-- An incomplete upload is left registered so the sender can carry on. -/
def finish : Host × Except String Path :=
  match h.get id with
  | none => (h, .error EXPIRED)
  | some up =>
    if up.received ≠ up.bytes then (h, .error "that file did not arrive in full")
    else ({ h with reg := h.reg.erase id }, .ok up.path)

end Host

inductive Event where
  | begin (name : Str) (bytes : ℕ) (dir : Str) (upload_id : String) (now touched_at : ℤ)
    (made : Except String Unit)
  | chunk (id : String) (offset : ℕ) (b64 : Except String Bytes) (fails : Option (ℕ × String))
    (now : ℤ)
  | finish (id : String)
  | abort (id : String)

namespace Event

def apply (h : Host) : Event → Host
  | begin name bytes dir upload_id now touched_at made =>
    (h.begin name bytes dir upload_id now touched_at made).1
  | chunk id offset b64 fails now => (h.chunk id offset b64 fails now).1
  | finish id => (h.finish id).1
  | abort id => h.abort id

/-- The uploads it is about: one that begins is about those that have expired too. -/
def ActsFor (h : Host) : Event → String → Prop
  | begin _ _ _ upload_id now _ _, id => id = upload_id ∨ ∃ up, h.get id = some up ∧ up.is_stale now
  | chunk id' .., id | finish id', id | abort id', id => id = id'

/-- A new upload has an id and a file of its own, and a write that fails has written nothing. -/
def Fits (h : Host) : Event → Prop
  | begin name _ dir upload_id now _ _ => (h.reap_expired now).held upload_id = none ∧
      (h.reap_expired now).disk ⟨dir, safe_basename name⟩ = none
  | chunk _ _ _ fails _ => ∀ x ∈ fails, x.1 = 0
  | _ => True

end Event

def system : System Host Event where
  init h := h = ⟨∅, fun _ => none, fun _ => [], fun _ => none⟩
  step h e h' := h' = e.apply h

/-- What is on the disk is what was sent, and everyone's own. -/
structure Host.Sound (h : Host) : Prop where
  file : ∀ id path, h.held id = some path → h.disk path = some (h.sent id)
  apart : ∀ id id' path, h.held id = some path → h.held id' = some path → id = id'
  /-- It is a file right in the folder. -/
  named : ∀ id path, h.held id = some path → components path.name = [.normal path.name]
  /-- A file whose upload was aborted or expired is gone. -/
  left : ∀ path, h.disk path ≠ none → ∃ id, h.held id = some path
  counted : ∀ id up, h.get id = some up → h.held id = some up.path ∧ up.received = (h.sent id).length

/-- What a step keeps: it is about some of the uploads that are under way. -/
structure Keeps (h h' : Host) (acts : String → Prop) : Prop where
  sound : h'.Sound
  others : ∀ id path, h.held id = some path → ¬ (acts id ∧ h.get id ≠ none) →
    h'.held id = some path ∧ h'.disk path = h.disk path ∧ h'.get id = h.get id

/-- What an upload is, in a state of a run. -/
structure Host.Exact (h : Host) : Prop extends h.Sound where
  refused : ∀ id offset b64 fails now e, Event.Fits h (.chunk id offset b64 fails now) →
    (h.chunk id offset b64 fails now).2 = .error e → (h.chunk id offset b64 fails now).1 = h
  whole : ∀ id path, (h.finish id).2 = .ok path → ∃ up, h.get id = some up ∧ path = up.path ∧
    (h.finish id).1.disk path = some (h.sent id) ∧ (h.sent id).length = up.bytes
  keeps : ∀ e, Event.Fits h e → Keeps h (e.apply h) (e.ActsFor h)
  gone : ∀ id, (h.abort id).get id = none ∧
    ∀ path, (h.finish id).2 = .ok path → (h.finish id).1.get id = none
  expired : ∀ now id up, (h.reap_expired now).get id = some up → up.is_stale now = false

section
variable {h h' h'' : Host} {id : String} {up : Incoming} {path : Path} {acts acts' : String → Prop}

theorem Keeps.refl (hs : h.Sound) : Keeps h h acts := ⟨hs, fun _ _ h _ => ⟨h, rfl, rfl⟩⟩

theorem Keeps.trans (h1 : Keeps h h' acts) (h2 : Keeps h' h'' acts') {both : String → Prop}
    (hboth : ∀ id, acts id ∨ acts' id → both id) : Keeps h h'' both := by
  refine ⟨h2.sound, fun id path hheld hacts => ?_⟩
  obtain ⟨hheld', hdisk, hget⟩ := h1.others id path hheld fun ha => hacts ⟨hboth id (Or.inl ha.1), ha.2⟩
  obtain ⟨hheld'', hdisk', hget'⟩ := h2.others id path hheld' fun ha =>
    hacts ⟨hboth id (Or.inr ha.1), hget ▸ ha.2⟩
  exact ⟨hheld'', hdisk'.trans hdisk, hget'.trans hget⟩

/-- A step changes one upload and its file. -/
structure Touched (h h' : Host) (id : String) (path : Path) : Prop where
  get : ∀ id' ≠ id, h'.get id' = h.get id'
  held : ∀ id' ≠ id, h'.held id' = h.held id'
  sent : ∀ id' ≠ id, h'.sent id' = h.sent id'
  disk : ∀ path' ≠ path, h'.disk path' = h.disk path'
  new : ∀ id', h.held id' = some path → id' = id
  own : h.held id = none ∨ h.held id = some path ∧ h.get id ≠ none
  after : (h'.held id = none ∧ h'.disk path = none ∨ h'.held id = some path ∧
    components path.name = [.normal path.name] ∧ h'.disk path = some (h'.sent id))
  counted : ∀ up, h'.get id = some up → h'.held id = some up.path ∧ up.received = (h'.sent id).length

theorem Touched.keeps (ht : Touched h h' id path) (hs : h.Sound) : Keeps h h' (· = id) := by
  have hothers : ∀ id' path', h.held id' = some path' → ¬ (id' = id ∧ h.get id' ≠ none) →
      h'.held id' = some path' ∧ h'.disk path' = h.disk path' ∧ h'.get id' = h.get id' := by
    intro id' path' hheld hacts
    have hid : id' ≠ id := by
      rintro rfl
      rcases ht.own with hnone | ⟨-, hget⟩
      · exact nomatch hnone.symm.trans hheld
      · exact hacts ⟨rfl, hget⟩
    exact ⟨(ht.held id' hid).trans hheld, ht.disk _ fun he => hid (ht.new id' (he ▸ hheld)), ht.get id' hid⟩
  -- an upload is the one that changed, or stands as it did
  have hcases : ∀ id' path', h'.held id' = some path' →
      id' = id ∧ path' = path ∧ components path.name = [.normal path.name] ∧
        h'.disk path = some (h'.sent id) ∨
      id' ≠ id ∧ h.held id' = some path' ∧ path' ≠ path := by
    intro id' path' hheld
    by_cases hid : id' = id
    · rcases ht.after with ⟨hnone, -⟩ | ⟨hsome, hafter⟩
      · rw [hid, hnone] at hheld
        exact nomatch hheld
      · exact Or.inl ⟨hid, some.inj ((hid ▸ hheld).symm.trans hsome), hafter⟩
    · rw [ht.held id' hid] at hheld
      exact Or.inr ⟨hid, hheld, fun he => hid (ht.new id' (he ▸ hheld))⟩
  refine ⟨⟨fun id' path' hheld => ?_, fun id' id'' path' hheld hheld' => ?_, fun id' path' hheld => ?_,
    fun path' hdisk => ?_, fun id' up hget => ?_⟩, hothers⟩
  · rcases hcases id' path' hheld with ⟨rfl, rfl, -, hfile⟩ | ⟨hid, hold, hpath⟩
    · exact hfile
    · rw [ht.disk _ hpath, ht.sent id' hid]
      exact hs.file id' path' hold
  · rcases hcases id' path' hheld with ⟨rfl, rfl, -⟩ | ⟨-, hold, hpath⟩
    · rcases hcases id'' path' hheld' with ⟨rfl, -⟩ | ⟨-, -, hpath⟩
      · rfl
      · exact absurd rfl hpath
    · rcases hcases id'' path' hheld' with ⟨-, he, -⟩ | ⟨-, hold', -⟩
      · exact absurd he hpath
      · exact hs.apart id' id'' path' hold hold'
  · rcases hcases id' path' hheld with ⟨-, rfl, hnamed, -⟩ | ⟨-, hold, -⟩
    · exact hnamed
    · exact hs.named id' path' hold
  · by_cases he : path' = path
    · rcases ht.after with ⟨-, hnone⟩ | ⟨hsome, -⟩
      · exact absurd hnone (he ▸ hdisk)
      · exact ⟨id, he ▸ hsome⟩
    · rw [ht.disk path' he] at hdisk
      obtain ⟨id', hold⟩ := hs.left path' hdisk
      refine ⟨id', (ht.held id' fun hid => ?_).trans hold⟩
      subst hid
      rcases ht.own with hnone | ⟨hsome, -⟩
      · exact nomatch hnone.symm.trans hold
      · exact he (some.inj (hold.symm.trans hsome))
  · by_cases hid : id' = id
    · subst hid
      exact ht.counted up hget
    · rw [ht.get id' hid] at hget
      rw [ht.held id' hid, ht.sent id' hid]
      exact hs.counted id' up hget

/-! ## What each verb does -/

theorem Host.Sound.new (hs : h.Sound) (hget : h.get id = some up) :
    (∀ id', h.held id' = some up.path → id' = id) ∧
      (h.held id = none ∨ h.held id = some up.path ∧ h.get id ≠ none) := by
  have hheld := (hs.counted id up hget).1
  exact ⟨fun id' hheld' => hs.apart id' id _ hheld' hheld, Or.inr ⟨hheld, hget ▸ some_ne_none _⟩⟩

theorem keeps_abort (hs : h.Sound) (id : String) : Keeps h (h.abort id) (· = id) := by
  rw [Host.abort]
  split
  · exact Keeps.refl hs
  next up hget =>
    have hgone : (h.reg.erase id).lookup id = none := AList.lookup_erase ..
    obtain ⟨hnew, hown⟩ := hs.new hget
    exact Touched.keeps ⟨fun id' hid => AList.lookup_erase_ne hid, fun _ hid => update_of_ne hid ..,
      fun _ _ => rfl, fun _ hp => update_of_ne hp .., hnew, hown, Or.inl ⟨update_self .., update_self ..⟩,
      fun up' hget' => (nomatch hgone.symm.trans hget')⟩ hs

theorem get_abort {id' : String} (hget : (h.abort id').get id = some up) :
    h.get id = some up ∧ id ≠ id' := by
  rw [Host.abort] at hget
  split at hget
  next hnone =>
    exact ⟨hget, fun hid => nomatch (hid ▸ hnone).symm.trans hget⟩
  · by_cases hid : id = id'
    · subst hid
      have hgone : (h.reg.erase id).lookup id = none := AList.lookup_erase ..
      exact nomatch hgone.symm.trans hget
    · exact ⟨(AList.lookup_erase_ne hid).symm.trans hget, hid⟩

theorem aborts (hs : h.Sound) (ids : List String) : Keeps h (ids.foldl Host.abort h) (· ∈ ids) ∧
    ∀ id up, (ids.foldl Host.abort h).get id = some up → h.get id = some up ∧ id ∉ ids := by
  induction ids generalizing h with
  | nil => exact ⟨Keeps.refl hs, fun id up hget => ⟨hget, not_mem_nil⟩⟩
  | cons a ids ih =>
    have habort := keeps_abort hs a
    obtain ⟨hkeeps, hgets⟩ := ih habort.sound
    refine ⟨habort.trans hkeeps fun id => mem_cons.mpr, fun id up hget => ?_⟩
    obtain ⟨hget, hin⟩ := hgets id up hget
    obtain ⟨hget, hid⟩ := get_abort hget
    exact ⟨hget, not_mem_cons_of_ne_of_not_mem hid hin⟩

theorem reaped (hs : h.Sound) (now : ℤ) :
    Keeps h (h.reap_expired now) (fun id => ∃ up, h.get id = some up ∧ up.is_stale now) ∧
    ∀ id up, (h.reap_expired now).get id = some up → up.is_stale now = false := by
  have hmem : ∀ id, id ∈ (h.reg.entries.filter fun x => x.2.is_stale now).map Sigma.fst ↔
      ∃ up, h.get id = some up ∧ up.is_stale now = true := by
    intro id
    rw [List.mem_map]
    constructor
    · rintro ⟨⟨id, up⟩, hin, rfl⟩
      exact ⟨up, AList.mem_lookup_iff.mpr (mem_filter.mp hin).1, (mem_filter.mp hin).2⟩
    · rintro ⟨up, hget, hstale⟩
      exact ⟨⟨id, up⟩, mem_filter.mpr ⟨AList.mem_lookup_iff.mp hget, hstale⟩, rfl⟩
  obtain ⟨hkeeps, hgets⟩ := aborts hs ((h.reg.entries.filter fun x => x.2.is_stale now).map Sigma.fst)
  simp only [hmem] at hkeeps hgets
  refine ⟨hkeeps, fun id up hget => ?_⟩
  obtain ⟨hget, hfresh⟩ := hgets id up hget
  rw [← Bool.not_eq_true]
  exact fun hstale => hfresh ⟨up, hget, hstale⟩

theorem components_basename (name : Str) :
    components (safe_basename name) = [.normal (safe_basename name)] := by
  rw [safe_basename]
  cases hname : (file_name (trim name)).filter fun s => s ≠ [] with
  | none => decide
  | some s =>
    have hs := (filter_eq_some_iff.mp hname).1
    rw [file_name] at hs
    split at hs
    next s' hlast =>
      cases hs
      have hin := mem_of_getLast? hlast
      rw [components, mem_append, mem_filterMap] at hin
      rcases hin with hin | ⟨part, hpart, hin⟩
      · split_ifs at hin <;> simp at hin
      · split_ifs at hin with hnil hdots
        · exact nomatch hin
        · obtain rfl := Component.normal.inj (some.inj hin)
          rw [splitOn_eq_splitOnP] at hpart
          have hsep : '/' ∉ part := fun hc => absurd (no_sep_of_mem_splitOnP hpart '/' hc) (by decide)
          have hhead : part.head? ≠ some '/' := fun hh => hsep (mem_of_mem_head? hh)
          have hdot : [part].head? ≠ some ['.'] := fun hd => hnil (Or.inr (some.inj hd))
          rw [Option.getD_some, components, splitOn_eq_singleton hsep, if_neg hhead, if_neg hdot]
          simp [hnil, hdots]
    · exact nomatch hs

theorem keeps_begin (hs : h.Sound) {name dir : Str} {bytes : ℕ} {now touched_at : ℤ}
    {made : Except String Unit} (hfit : Event.Fits h (.begin name bytes dir id now touched_at made)) :
    Keeps h (h.begin name bytes dir id now touched_at made).1
      (Event.ActsFor h (.begin name bytes dir id now touched_at made)) := by
  obtain ⟨hreaped, -⟩ := reaped hs now
  have hstay : Keeps (h.reap_expired now) (h.reap_expired now) (· = id) := Keeps.refl hreaped.sound
  have hrefused := hreaped.trans hstay fun _ => Or.symm
  obtain ⟨hnew, hfree⟩ := hfit
  unfold Host.begin
  dsimp only
  split_ifs
  · exact hrefused
  · split
    · exact hrefused
    · suffices hnew : Touched (h.reap_expired now) _ id ⟨dir, safe_basename name⟩ from
        hreaped.trans (hnew.keeps hreaped.sound) fun _ => Or.symm
      refine ⟨fun _ hid => AList.lookup_insert_ne hid, fun _ hid => update_of_ne hid ..,
        fun _ hid => update_of_ne hid .., fun _ hp => update_of_ne hp .., fun id' hheld => ?_, Or.inl hnew,
        Or.inr ⟨update_self .., components_basename name, ?_⟩, fun up hget => ?_⟩
      · rw [hreaped.sound.file id' _ hheld] at hfree
        exact nomatch hfree
      · dsimp only
        rw [update_self, update_self]
      · obtain rfl := some.inj ((AList.lookup_insert _).symm.trans hget)
        dsimp only
        rw [update_self, update_self]
        exact ⟨rfl, rfl⟩

/-- A piece is refused and nothing happens, or it goes to the end of the file. -/
theorem chunk_cases (h : Host) (id : String) (offset : ℕ) (b64 : Except String Bytes)
    {fails : Option (ℕ × String)} (now : ℤ) (hfit : ∀ x ∈ fails, x.1 = 0) :
    (h.chunk id offset b64 fails now).1 = h ∨
    ∃ up bytes, h.get id = some up ∧ h.chunk id offset b64 fails now =
      ({ h with
          reg := h.reg.insert id
            { up with received := up.received + bytes.length, touched_at := now }
          disk := update h.disk up.path ((h.disk up.path).map (· ++ bytes))
          sent := update h.sent id (h.sent id ++ bytes) }, .ok (up.received + bytes.length)) := by
  unfold Host.chunk
  split
  · exact Or.inl rfl
  next bytes =>
    split
    · exact Or.inl rfl
    next up hget =>
      dsimp only
      split_ifs
      · exact Or.inl rfl
      · exact Or.inl rfl
      · split
        next wrote e =>
          obtain rfl : wrote = 0 := hfit (wrote, e) rfl
          left
          simp [update_eq_self]
        · exact Or.inr ⟨up, bytes, hget, rfl⟩

theorem keeps_chunk (hs : h.Sound) {offset : ℕ} {b64 : Except String Bytes}
    {fails : Option (ℕ × String)} {now : ℤ} (hfit : ∀ x ∈ fails, x.1 = 0) :
    Keeps h (h.chunk id offset b64 fails now).1 (· = id) := by
  rcases chunk_cases h id offset b64 now hfit with hsame | ⟨up, bytes, hget, heq⟩
  · rw [hsame]
    exact Keeps.refl hs
  · obtain ⟨hheld, hreceived⟩ := hs.counted id up hget
    obtain ⟨hnew, hown⟩ := hs.new hget
    rw [heq]
    refine Touched.keeps ⟨fun _ hid => AList.lookup_insert_ne hid, fun _ _ => rfl,
      fun _ hid => update_of_ne hid .., fun _ hp => update_of_ne hp .., hnew, hown,
      Or.inr ⟨hheld, hs.named id _ hheld, ?_⟩, fun up' hget' => ?_⟩ hs
    · dsimp only
      rw [update_self, update_self, hs.file id _ hheld]
      rfl
    · obtain rfl := some.inj ((AList.lookup_insert _).symm.trans hget')
      dsimp only
      rw [update_self, length_append, hreceived]
      exact ⟨hheld, rfl⟩

theorem finish_cases (h : Host) (id : String) : (∃ e, h.finish id = (h, .error e)) ∨
    ∃ up, h.get id = some up ∧ up.received = up.bytes ∧
      h.finish id = ({ h with reg := h.reg.erase id }, .ok up.path) := by
  rw [Host.finish]
  split
  · exact Or.inl ⟨_, rfl⟩
  next up hget =>
    split_ifs with hshort
    · exact Or.inl ⟨_, rfl⟩
    · exact Or.inr ⟨up, hget, not_not.mp hshort, rfl⟩

theorem keeps_finish (hs : h.Sound) (id : String) : Keeps h (h.finish id).1 (· = id) := by
  rcases finish_cases h id with ⟨e, heq⟩ | ⟨up, hget, -, heq⟩
  · rw [heq]
    exact Keeps.refl hs
  · have hgone : (h.reg.erase id).lookup id = none := AList.lookup_erase ..
    have hheld := (hs.counted id up hget).1
    obtain ⟨hnew, hown⟩ := hs.new hget
    rw [heq]
    exact Touched.keeps ⟨fun _ hid => AList.lookup_erase_ne hid, fun _ _ => rfl, fun _ _ => rfl,
      fun _ _ => rfl, hnew, hown, Or.inr ⟨hheld, hs.named id _ hheld, hs.file id _ hheld⟩,
      fun up' hget' => (nomatch hgone.symm.trans hget')⟩ hs

theorem keeps_apply (hs : h.Sound) {e : Event} (hfit : e.Fits h) : Keeps h (e.apply h) (e.ActsFor h) := by
  cases e with
  | begin => exact keeps_begin hs hfit
  | chunk => exact keeps_chunk hs hfit
  | finish id => exact keeps_finish hs id
  | abort id => exact keeps_abort hs id

end

theorem sound_reachable {h : Host} (hrun : Reachable (system.when fun h e => e.Fits h) h) : h.Sound := by
  refine hrun.invariant (fun h hinit => ?_) fun h e h' hs hstep => ?_
  · obtain rfl := hinit
    exact ⟨nofun, nofun, nofun, fun _ hne => absurd rfl hne, nofun⟩
  · rw [hstep.2]
    exact (keeps_apply hs hstep.1).sound

/-- An upload is exactly what was sent, in every run in which a write that fails has written
nothing and a new upload finds no file in its place. -/
theorem uploads_exact {h : Host} (hrun : Reachable (system.when fun h e => e.Fits h) h) : h.Exact := by
  have hs := sound_reachable hrun
  refine ⟨hs, fun id offset b64 fails now e hfit herror => ?_, fun id path hok => ?_,
    fun e => keeps_apply hs, fun id => ⟨?_, fun path hok => ?_⟩, fun now => (reaped hs now).2⟩
  · rcases chunk_cases h id offset b64 now hfit with hsame | ⟨_, _, -, heq⟩
    · exact hsame
    · exact nomatch (congrArg Prod.snd heq).symm.trans herror
  · rcases finish_cases h id with ⟨_, heq⟩ | ⟨up, hget, hall, heq⟩
    · exact nomatch (congrArg Prod.snd heq).symm.trans hok
    · obtain ⟨hheld, hreceived⟩ := hs.counted id up hget
      obtain rfl := Except.ok.inj ((congrArg Prod.snd heq).symm.trans hok)
      rw [heq]
      exact ⟨up, hget, rfl, hs.file id _ hheld, hreceived.symm.trans hall⟩
  · by_contra hne
    obtain ⟨up, hget⟩ := ne_none_iff_exists'.mp hne
    exact (get_abort hget).2 rfl
  · rcases finish_cases h id with ⟨_, heq⟩ | ⟨up, -, -, heq⟩
    · exact nomatch (congrArg Prod.snd heq).symm.trans hok
    · rw [heq]
      exact AList.lookup_erase ..

/-- The pieces of two uploads come by turns, a piece out of order is refused, one of the two is
aborted and the other one ends. -/
theorem uploads_exact_turns :
    ∃ h : Host, h.Exact ∧ h.disk ⟨['d'], ['a']⟩ = some [1, 2, 3] ∧ h.sent "v" = [7] ∧
      h.disk ⟨['e'], ['a']⟩ = none := by
  have go : ∀ {h}, Reachable (system.when fun h e => e.Fits h) h → ∀ e : Event, e.Fits h →
      Reachable (system.when fun h e => e.Fits h) (e.apply h) := fun hrun e hfit => hrun.next (a := e) ⟨hfit, rfl⟩
  have hbegun := go (.start rfl) (.begin ['a'] 3 ['d'] "u" 0 0 (.ok ())) ⟨rfl, rfl⟩
  have hpiece := go hbegun (.chunk "u" 0 (.ok [1, 2]) none 0) nofun
  have hother := go hpiece (.begin ['a'] 2 ['e'] "v" 0 0 (.ok ())) ⟨rfl, rfl⟩
  have hpiece' := go hother (.chunk "v" 0 (.ok [7]) none 0) nofun
  have hrefused := go hpiece' (.chunk "u" 1 (.ok [3]) none 0) nofun
  have hlast := go hrefused (.chunk "u" 2 (.ok [3]) none 0) nofun
  have haborted := go hlast (.abort "v") trivial
  have hfinished := go haborted (.finish "u") trivial
  exact ⟨_, uploads_exact hfinished, by decide, by decide, by decide⟩

/-- A write of two bytes fails after the first, the piece comes again, and that byte is in the
file twice. -/
theorem piece_again : ∃ h : Host, Reachable system h ∧ h.sent "u" = [1, 2] ∧
    (h.finish "u").2 = .ok ⟨['d'], ['a']⟩ ∧ h.disk ⟨['d'], ['a']⟩ = some [1, 1, 2] := by
  have go : ∀ {h}, Reachable system h → ∀ e : Event, Reachable system (e.apply h) :=
    fun hrun e => hrun.next (a := e) rfl
  have hbegun := go (.start rfl) (.begin ['a'] 2 ['d'] "u" 0 0 (.ok ()))
  have hfailed := go hbegun (.chunk "u" 0 (.ok [1, 2]) (some (1, "no space left")) 0)
  have hagain := go hfailed (.chunk "u" 0 (.ok [1, 2]) none 0)
  exact ⟨_, hagain, by decide, by decide, by decide⟩

/-! ## The sender (`peeruploadrun.rs`) -/

def DEFAULT_CHUNK : ℕ := 1024 * 1024

def next_chunk (received total chunk : ℕ) : Option (ℕ × ℕ) :=
  if received ≥ total then none
  else some (received, min (if chunk = 0 then DEFAULT_CHUNK else chunk) (total - received))

section
variable (id : String) (body : Bytes) (chunk : ℕ)

/-- The bytes from `sent` on are sent, and no write fails. -/
def ask (h : Host) (sent : ℕ) : ℕ × ℕ → ℤ → Host × Except String ℕ
  | (offset, len), now => h.chunk id offset (.ok ((body.drop sent).take len)) none now

/-- `stream` and how it ends. Before each piece the host does what others ask. -/
inductive Stream : Host → ℕ → Host → Except String Unit → Prop
  | done {h sent} (hend : next_chunk sent body.length chunk = none) : Stream h sent h (.ok ())
  | piece {h h' h'' sent r range received} (now : ℤ) (hnext : next_chunk sent body.length chunk = some range)
      (hok : ask id body h sent range now = (h', .ok received)) (hrest : Stream h' (sent + range.2) h'' r) :
      Stream h sent h'' r
  | refused {h h' sent range e} (now : ℤ) (hnext : next_chunk sent body.length chunk = some range)
      (hno : ask id body h sent range now = (h', .error e)) : Stream h sent h' (.error e)
  | other {h h' sent r} (e : Event) (hfit : e.Fits h) (hothers : ¬ e.ActsFor h id)
      (hrest : Stream (e.apply h) sent h' r) : Stream h sent h' r

end

/-- So much of the file is there. -/
structure Underway (h : Host) (id : String) (path : Path) (body : Bytes) (sent : ℕ) : Prop where
  sound : h.Sound
  get : ∃ touched_at, h.get id = some ⟨path, body.length, sent, touched_at⟩
  file : h.disk path = some (body.take sent)
  le : sent ≤ body.length

section
variable {h h' : Host} {id : String} {path : Path} {body : Bytes} {chunk sent : ℕ}

theorem Underway.apply (hu : Underway h id path body sent) {e : Event} (hfit : e.Fits h)
    (hothers : ¬ e.ActsFor h id) : Underway (e.apply h) id path body sent := by
  have hkeeps := keeps_apply hu.sound hfit
  obtain ⟨touched_at, hget⟩ := hu.get
  have hheld := (hu.sound.counted id _ hget).1
  obtain ⟨-, hdisk, hsame⟩ := hkeeps.others id path hheld fun hacts => hothers hacts.1
  exact ⟨hkeeps.sound, ⟨touched_at, hsame.trans hget⟩, hdisk.trans hu.file, hu.le⟩

/-- The next piece is accepted. -/
theorem Underway.asked (hu : Underway h id path body sent) {range : ℕ × ℕ} (now : ℤ)
    (hnext : next_chunk sent body.length chunk = some range) :
    ∃ h', ask id body h sent range now = (h', .ok (sent + range.2)) ∧
      Underway h' id path body (sent + range.2) := by
  obtain ⟨touched_at, hget⟩ := hu.get
  unfold next_chunk at hnext
  rcases ite_eq_iff.mp hnext with ⟨-, hnone⟩ | ⟨hmore, hsome⟩
  · cases hnone
  · cases hsome
    generalize hlen : min _ (body.length - sent) = len
    have hle : len ≤ body.length - sent := hlen ▸ min_le_right ..
    have hpiece : ((body.drop sent).take len).length = len := by simp [hle]
    have hkeeps : Keeps h (h.chunk id sent (.ok ((body.drop sent).take len)) none now).1 (· = id) :=
      keeps_chunk hu.sound (by simp)
    unfold ask Host.chunk at *
    simp only [hget, hpiece] at hkeeps ⊢
    rw [if_neg (not_not.mpr rfl), if_neg (by omega)] at hkeeps ⊢
    refine ⟨_, rfl, hkeeps.sound, ⟨now, AList.lookup_insert _⟩, (update_self ..).trans ?_, by omega⟩
    rw [hu.file, Option.map_some, take_add]

theorem Underway.finish (hu : Underway h id path body sent)
    (hend : next_chunk sent body.length chunk = none) :
    (h.finish id).2 = .ok path ∧ (h.finish id).1.disk path = some body := by
  obtain ⟨touched_at, hget⟩ := hu.get
  have hall : sent = body.length := by
    unfold next_chunk at hend
    split_ifs at hend with hge
    exact le_antisymm hu.le hge
  subst hall
  rw [Host.finish, hget]
  simp [hu.file]

theorem Underway.stream {r : Except String Unit} (hu : Underway h id path body sent)
    (hstream : Stream id body chunk h sent h' r) :
    r = .ok () ∧ (h'.finish id).2 = .ok path ∧ (h'.finish id).1.disk path = some body := by
  induction hstream with
  | done hend => exact ⟨rfl, hu.finish hend⟩
  | piece now hnext hok hrest ih =>
    obtain ⟨_, hsent, hu'⟩ := hu.asked now hnext
    obtain ⟨rfl, -⟩ := Prod.mk.inj (hok.symm.trans hsent)
    exact ih hu'
  | refused now hnext hno =>
    obtain ⟨_, hsent, -⟩ := hu.asked now hnext
    cases hno.symm.trans hsent
  | other e hfit hothers hrest ih => exact ih (hu.apply hfit hothers)

/-- A piece carries at least a byte, and none that is not there. -/
theorem next_chunk_moves {total : ℕ} {range : ℕ × ℕ} (hnext : next_chunk sent total chunk = some range) :
    sent < sent + range.2 ∧ sent + range.2 ≤ total := by
  unfold next_chunk at hnext
  have hdefault : 0 < DEFAULT_CHUNK := by decide
  split_ifs at hnext with hend hchunk
  · cases hnext
    dsimp only
    omega
  · cases hnext
    dsimp only
    omega

/-- The loop comes to its end: what is left to send goes down with every piece. -/
theorem Underway.ends (hu : Underway h id path body sent) :
    ∃ h', Stream id body chunk h sent h' (.ok ()) := by
  generalize hleft : body.length - sent = left
  induction left using Nat.strong_induction_on generalizing h sent with
  | _ left ih =>
    cases hnext : next_chunk sent body.length chunk with
    | none => exact ⟨h, .done hnext⟩
    | some range =>
      obtain ⟨h', hok, hu'⟩ := hu.asked 0 hnext
      obtain ⟨hmore, hle⟩ := next_chunk_moves hnext
      obtain ⟨h'', hrest⟩ := ih (body.length - (sent + range.2)) (by omega) hu' rfl
      exact ⟨h'', .piece 0 hnext hok hrest⟩

end

/-- A file is sent in pieces of at least a byte each, so that the sender comes to an end; none
is refused whatever the host does in between, and at the end the host has the file. -/
theorem send_in_pieces {h : Host} {id : String} {name dir : Str} {body : Bytes} {chunk : ℕ}
    {now touched_at : ℤ} (hrun : Reachable (system.when fun h e => e.Fits h) h)
    (hsize : body.length ≤ MAX_UPLOAD_BYTES)
    (hfit : Event.Fits h (.begin name body.length dir id now touched_at (.ok ()))) :
    let begun := (h.begin name body.length dir id now touched_at (.ok ())).1
    (∃ h', Stream id body chunk begun 0 h' (.ok ())) ∧
    (∀ sent range, next_chunk sent body.length chunk = some range →
      sent < sent + range.2 ∧ sent + range.2 ≤ body.length) ∧
    ∀ h' r, Stream id body chunk begun 0 h' r →
      r = .ok () ∧ (h'.finish id).2 = .ok ⟨dir, safe_basename name⟩ ∧
        (h'.finish id).1.disk ⟨dir, safe_basename name⟩ = some body := by
  have hs := sound_reachable hrun
  have hbegun := (keeps_apply hs hfit).sound
  simp only [Event.apply, Host.begin, if_neg (not_lt.mpr hsize)] at hbegun ⊢
  have hu : Underway _ id ⟨dir, safe_basename name⟩ body 0 :=
    ⟨hbegun, ⟨touched_at, AList.lookup_insert _⟩, update_self .., Nat.zero_le _⟩
  exact ⟨hu.ends, fun _ _ => next_chunk_moves, fun _ _ => hu.stream⟩

/-- Two bytes, one by one, and another upload ends in between. -/
theorem send_in_pieces_two : ∃ h' : Host, (h'.finish "u").1.disk ⟨['d'], ['a']⟩ = some [1, 2] := by
  have hstream : Stream "u" [1, 2] 1
      (Host.begin ⟨∅, fun _ => none, fun _ => [], fun _ => none⟩ ['a'] 2 ['d'] "u" 0 0 (.ok ())).1 0 _ _ :=
    .piece 0 rfl rfl (.other (.abort "v") trivial (by simp [Event.ActsFor]) (.piece 0 rfl rfl (.done rfl)))
  have hsent := @send_in_pieces ⟨∅, fun _ => none, fun _ => [], fun _ => none⟩ "u" ['a'] ['d'] [1, 2] 1
    0 0 (.start rfl) (by decide) ⟨rfl, rfl⟩
  exact ⟨_, (hsent.2.2 _ _ hstream).2.2⟩

end Lpm.Peer.Upload
