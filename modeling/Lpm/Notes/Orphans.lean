/-
What deleting messages and chats hands back: the blobs that went with what was deleted and
that no message has any more.

The hashes are read before the delete and looked for after it, inside one transaction, so
what is found is what the delete leaves; that a row is a message's reference at all is the
schema's doing.
-/
import Lpm.Notes.Store
import Lpm.Lib.Transition

set_option autoImplicit false

namespace Lpm.Notes

open List

open Transactions Distinct Transition

/-! ## Runs -/

inductive Call where
  | add_message (id : String) (now : ℤ) (chat_id text : String) (attachments : List Attachment)
  | delete_message (id : String)
  | delete_chat (id : String)

/-- What a call hands back, and what it leaves of the data. -/
def Call.run (faults : ℕ → Option String) (db : Db) : Call → Except String (List String) × Db
  | .add_message id now chat_id text attachments =>
    let (result, db) := Notes.add_message faults id now chat_id text attachments db
    (result.map fun _ => [], db)
  | .delete_message id => Notes.delete_message faults id db
  | .delete_chat id => Notes.delete_chat faults id db

/-- Every run of calls, with the disk failing whenever it does. A file may have been there. -/
def notes : System Db ((ℕ → Option String) × Call) where
  init db := db.Sound
  step db call db' := (call.2.run call.1 db).2 = db'

/-! ## What is deleted -/

/-- Messages are deleted with their attachments, and the orphans are the hashes among those
that no message has any more, each once. -/
structure Deleted (which : MessageRow → Bool) (db db' : Db) (orphans : List String) : Prop where
  kept : db'.messages = db.messages.filter fun m => !which m
  references (att : AttachmentRow) : att ∈ db'.attachments
    ↔ att ∈ db.attachments ∧ ¬∃ m ∈ db.messages, which m = true ∧ att.message_id = m.id
  orphaned (h : String) : h ∈ orphans
    ↔ (∃ m ∈ db.messages, which m = true ∧ ∃ att ∈ db.attachments, att.message_id = m.id ∧ att.hash = h)
      ∧ ¬Referenced db' h
  once : orphans.Nodup

section
variable {db db' : Db} {c c' : Conn Db} {faults : ℕ → Option String} {id : String}
  {which : MessageRow → Bool} {candidates orphans : List String}

theorem query_rows_ok {α : Type} {label : String} {read : Db → α} {a : α}
    (h : query_rows label read c = .ok (a, c')) : read c.data = a ∧ c'.data = c.data := by
  obtain ⟨_, middle, hprepare, hread⟩ := bind_ok h
  have hmiddle := (query_ok hprepare).2
  obtain ⟨hrows, hdata⟩ := query_ok hread
  rw [hmiddle] at hrows hdata
  exact ⟨hrows, hdata⟩

/-- Orphans are the candidates that no row names. -/
theorem orphans_among_ok (h : orphans_among candidates c = .ok (orphans, c')) : c'.data = c.data
    ∧ orphans.Sublist candidates
    ∧ ∀ hash, hash ∈ orphans
      ↔ hash ∈ candidates ∧ hash ∉ c.data.attachments.map AttachmentRow.hash := by
  rw [orphans_among] at h
  by_cases hnone : candidates = []
  · rw [if_pos hnone] at h
    obtain ⟨rfl, rfl⟩ := pure_ok h
    rw [hnone]
    exact ⟨rfl, List.Sublist.refl _, fun hash => ⟨nofun, fun h => nomatch h.1⟩⟩
  · rw [if_neg hnone] at h
    obtain ⟨still_ref, middle, hread, hpure⟩ := bind_ok h
    obtain ⟨hrows, hdata⟩ := query_rows_ok hread
    obtain ⟨rfl, rfl⟩ := pure_ok hpure
    refine ⟨hdata, filter_sublist, fun hash => ?_⟩
    rw [mem_filter, decide_eq_true_iff]
    refine and_congr_right fun hin => not_congr ?_
    rw [← hrows, mem_pushed, mem_filter, decide_eq_true_iff]
    exact ⟨fun h => h.elim nofun And.left, fun h => .inr ⟨h, hin⟩⟩

theorem mem_attachments_delete {att : AttachmentRow} :
    att ∈ (delete_messages which db).2.attachments
      ↔ att ∈ db.attachments ∧ ¬∃ m ∈ db.messages, which m = true ∧ att.message_id = m.id := by
  refine mem_filter.trans (and_congr_right fun _ => ?_)
  rw [decide_eq_true_iff, List.mem_map]
  refine not_congr ⟨?_, ?_⟩
  · rintro ⟨m, hm, hid⟩
    obtain ⟨hin, hwhich⟩ := mem_filter.mp hm
    exact ⟨m, hin, hwhich, hid.symm⟩
  · rintro ⟨m, hin, hwhich, hid⟩
    exact ⟨m, mem_filter.mpr ⟨hin, hwhich⟩, hid.symm⟩

theorem nodup_hashes_of (hsound : db.Sound) (id : String) : (hashes_of [id] db).Nodup := by
  have hpairs : ((db.attachments.filter fun att => att.message_id ∈ [id]).map
      fun att => (att.message_id, att.hash)).Nodup :=
    hsound.once.sublist (filter_sublist.map _)
  have hhashes : hashes_of [id] db = ((db.attachments.filter fun att => att.message_id ∈ [id]).map
      fun att => (att.message_id, att.hash)).map Prod.snd := by
    rw [hashes_of, List.map_map]
    rfl
  rw [hhashes]
  refine hpairs.map_on ?_
  intro x hx y hy hxy
  obtain ⟨att, hatt, rfl⟩ := List.mem_map.mp hx
  obtain ⟨other, hother, rfl⟩ := List.mem_map.mp hy
  have hid := mem_singleton.mp (of_decide_eq_true (mem_filter.mp hatt).2)
  have hid' := mem_singleton.mp (of_decide_eq_true (mem_filter.mp hother).2)
  exact Prod.ext (hid.trans hid'.symm) hxy

/-- The candidates were what the deleted messages had, and the rows looked through after it
are those the delete left. -/
theorem Deleted.of_orphans (hsound : db.Sound)
    (hmessages : db'.messages = (delete_messages which db).2.messages)
    (hattachments : db'.attachments = (delete_messages which db).2.attachments)
    (hcandidates : ∀ h, h ∈ candidates
      ↔ ∃ m ∈ db.messages, which m = true ∧ ∃ att ∈ db.attachments, att.message_id = m.id ∧ att.hash = h)
    (honce : candidates.Nodup) (hsub : orphans.Sublist candidates)
    (horphans : ∀ h, h ∈ orphans ↔ h ∈ candidates ∧ h ∉ db'.attachments.map AttachmentRow.hash) :
    Deleted which db db' orphans ∧ db'.Sound := by
  have hsound' : db'.Sound := by
    have hdeleted := hsound.delete_messages which
    refine ⟨?_, ?_⟩
    · rw [hmessages, hattachments]
      exact hdeleted.attached
    · rw [hattachments]
      exact hdeleted.once
  refine ⟨⟨hmessages, fun att => ?_, fun h => ?_, honce.sublist hsub⟩, hsound'⟩
  · rw [hattachments]
    exact mem_attachments_delete
  · rw [horphans, hcandidates, hsound'.referenced_iff]

theorem delete_chat_deleted (hsound : db.Sound)
    (h : delete_chat faults id db = (.ok orphans, db')) :
    Deleted (fun m => m.chat_id = id) db db' orphans ∧ db'.Sound := by
  obtain ⟨c, c', htx, rfl, rfl⟩ := transaction_ok h
  obtain ⟨candidates, read, hread, hrest⟩ := bind_ok htx
  obtain ⟨hrows, hdata⟩ := query_rows_ok hread
  obtain ⟨_, deleted, hdelete, hrest⟩ := bind_ok hrest
  obtain ⟨-, hdeleted⟩ := statement_run hdelete
  obtain ⟨n, gone, hgone, hrest⟩ := bind_ok hrest
  obtain ⟨-, hgone⟩ := statement_run hgone
  by_cases hnone : n = 0
  · rw [if_pos hnone] at hrest
    exact absurd hrest throw_ne_ok
  rw [if_neg hnone] at hrest
  obtain ⟨hlast, hsub, horphans⟩ := orphans_among_ok hrest
  rw [hdata] at hdeleted
  -- the orphans are read last and change no row
  have hleft : c'.data
      = (delete_chats id (delete_messages (fun m => m.chat_id = id) c.data).2).2 := by
    rw [hlast, ← hgone, ← hdeleted]
  have hmessages : c'.data.messages = (delete_messages (fun m => m.chat_id = id) c.data).2.messages :=
    (congrArg Db.messages hleft).trans rfl
  have hattachments : c'.data.attachments
      = (delete_messages (fun m => m.chat_id = id) c.data).2.attachments :=
    (congrArg Db.attachments hleft).trans rfl
  refine Deleted.of_orphans hsound hmessages hattachments ?_ ?_ hsub ?_
  · intro hash
    rw [← hrows, mem_pushed, mem_hashes_of]
    constructor
    · rintro (h | ⟨att, hatt, hid, rfl⟩)
      · exact nomatch h
      · obtain ⟨m, hm, hmid⟩ := List.mem_map.mp hid
        obtain ⟨hin, hwhich⟩ := mem_filter.mp hm
        exact ⟨m, hin, hwhich, att, hatt, hmid.symm, rfl⟩
    · rintro ⟨m, hin, hwhich, att, hatt, hid, rfl⟩
      refine .inr ⟨att, hatt, ?_, rfl⟩
      exact List.mem_map.mpr ⟨m, mem_filter.mpr ⟨hin, hwhich⟩, hid.symm⟩
  · rw [← hrows]
    exact nodup_pushed nodup_nil
  · rw [hlast]
    exact horphans

theorem delete_message_deleted (hsound : db.Sound)
    (h : delete_message faults id db = (.ok orphans, db')) :
    Deleted (fun m => m.id = id) db db' orphans ∧ db'.Sound := by
  obtain ⟨c, c', htx, rfl, rfl⟩ := transaction_ok h
  obtain ⟨hashes, read, hread, hrest⟩ := bind_ok htx
  obtain ⟨hrows, hdata⟩ := query_rows_ok hread
  obtain ⟨n, deleted, hdelete, hrest⟩ := bind_ok hrest
  obtain ⟨-, hdeleted⟩ := statement_run hdelete
  by_cases hnone : n = 0
  · rw [if_pos hnone] at hrest
    exact absurd hrest throw_ne_ok
  rw [if_neg hnone] at hrest
  obtain ⟨hlast, hsub, horphans⟩ := orphans_among_ok hrest
  rw [hdata] at hdeleted
  have hleft : c'.data = (delete_messages (fun m => m.id = id) c.data).2 := by
    rw [hlast, ← hdeleted]
  refine Deleted.of_orphans hsound (congrArg Db.messages hleft) (congrArg Db.attachments hleft)
    ?_ ?_ hsub ?_
  · intro hash
    rw [← hrows, mem_hashes_of]
    constructor
    -- a row of this id is a message's that is there
    · rintro ⟨att, hatt, hid, rfl⟩
      obtain ⟨m, hm, hmid⟩ := List.mem_map.mp (hsound.attached att hatt)
      refine ⟨m, hm, ?_, att, hatt, hmid.symm, rfl⟩
      rw [decide_eq_true_iff, hmid]
      exact mem_singleton.mp hid
    · rintro ⟨m, hin, hwhich, att, hatt, hid, rfl⟩
      refine ⟨att, hatt, ?_, rfl⟩
      rw [mem_singleton, hid]
      exact of_decide_eq_true hwhich
  -- a message has a hash once
  · rw [← hrows]
    exact nodup_hashes_of hsound id
  · rw [hlast]
    exact horphans

end

/-! ## Every call -/

section
variable {db db' : Db} {faults : ℕ → Option String}

/-- A call that fails leaves everything as it was. -/
theorem run_error {call : Call} {e : String} (h : (call.run faults db).1 = .error e) :
    (call.run faults db).2 = db := by
  cases call with
  | delete_message id | delete_chat id => exact transaction_error h
  | add_message id now chat_id text attachments =>
    dsimp only [Call.run, Notes.add_message] at h ⊢
    by_cases hchat : chat_id = ""
    · rw [if_pos hchat]
    · rw [if_neg hchat] at h ⊢
      cases hresult : (transaction (add_message_tx id now chat_id text attachments) faults db).1 with
      | ok m =>
        rw [hresult] at h
        exact nomatch h
      | error e' => exact transaction_error hresult

theorem add_message_sound (hsound : db.Sound) {id : String} {now : ℤ} {chat_id text : String}
    {attachments : List Attachment} :
    (transaction (add_message_tx id now chat_id text attachments) faults db).2.Sound := by
  refine transaction_invariant ?_ hsound
  intro c m c' hsound h
  obtain ⟨n, bumped, hbump, hrest⟩ := bind_ok h
  obtain ⟨-, hbumped⟩ := statement_run hbump
  by_cases hnone : n = 0
  · rw [if_pos hnone] at hrest
    exact absurd hrest throw_ne_ok
  rw [if_neg hnone] at hrest
  obtain ⟨_, inserted, hinsert, hrest⟩ := bind_ok hrest
  obtain ⟨_, attached, hloop, hpure⟩ := bind_ok hrest
  have hsound_bumped : bumped.data.Sound := by
    rw [← hbumped]
    exact hsound.update_chats now chat_id
  have hsound_inserted := hsound_bumped.insert_message (statement_ok hinsert)
  have hsound_attached : attached.data.Sound := by
    refine @forM_invariant _ _ _ _ Db.Sound _ attachments ?_ hsound_inserted hloop
    intro att _ c c' hsound h
    exact hsound.insert_attachment (statement_ok h)
  rw [← (pure_ok hpure).2]
  exact hsound_attached

theorem Db.Sound.run (hsound : db.Sound) (call : Call) : (call.run faults db).2.Sound := by
  cases hresult : (call.run faults db).1 with
  | error e =>
    rw [run_error hresult]
    exact hsound
  | ok orphans =>
    cases call with
    | delete_message id => exact (delete_message_deleted hsound (Prod.ext hresult rfl)).2
    | delete_chat id => exact (delete_chat_deleted hsound (Prod.ext hresult rfl)).2
    | add_message id now chat_id text attachments =>
      dsimp only [Call.run, Notes.add_message]
      by_cases hchat : chat_id = ""
      · rw [if_pos hchat]
        exact hsound
      · rw [if_neg hchat]
        exact add_message_sound hsound

theorem notes_sound (hs : Reachable notes db) : db.Sound := by
  refine hs.invariant (fun _ h => h) ?_
  rintro db ⟨faults, call⟩ db' hsound rfl
  exact hsound.run call

/-- In every run, what a delete hands back are the blobs that were what it deleted had and
that no message has any more, and a call that fails has done nothing. -/
theorem orphans_are_exact (hs : Reachable notes db) (faults : ℕ → Option String) :
    (∀ id orphans db', delete_message faults id db = (.ok orphans, db') →
      Deleted (fun m => m.id = id) db db' orphans)
    ∧ (∀ id orphans db', delete_chat faults id db = (.ok orphans, db') →
      Deleted (fun m => m.chat_id = id) db db' orphans)
    ∧ ∀ (call : Call) (e : String), (call.run faults db).1 = .error e → (call.run faults db).2 = db := by
  have hsound := notes_sound hs
  exact ⟨fun _ _ _ h => (delete_message_deleted hsound h).1,
    fun _ _ _ h => (delete_chat_deleted hsound h).1, fun _ _ h => run_error h⟩

end

/-! ## A blob that two messages share

Two messages of two chats share a blob, and the chat of one is deleted. -/

def shared_blob : Db where
  chats := [⟨"work", 1⟩, ⟨"home", 1⟩]
  messages := [⟨"1", "work", 1, "plan"⟩, ⟨"2", "home", 1, "plan"⟩]
  attachments := [⟨"1", "a", "plan.pdf", 3, ""⟩, ⟨"1", "b", "draft.pdf", 3, ""⟩, ⟨"2", "a", "plan.pdf", 3, ""⟩]

theorem orphans_are_exact_shared :
    ∃ db', Deleted (fun m => m.chat_id = "work") shared_blob db' ["b"] := by
  have hstart : Reachable notes shared_blob := .start ⟨by decide +kernel, by decide +kernel⟩
  have hdelete : (delete_chat (fun _ => none) "work" shared_blob).1 = .ok ["b"] := rfl
  exact ⟨_, (orphans_are_exact hstart fun _ => none).2.1 "work" ["b"] _ (Prod.ext hdelete rfl)⟩

end Lpm.Notes
