/-
The notes store of `notes_store.rs`: its tables with the constraints of their schema, and
the calls that add a message and delete messages and chats, each in one transaction.

An attachment row names the message it belongs to, and goes with it; the blob it names by its
hash may belong to any number of messages. SQLite's part is the constraints it checks on an
insert, the cascade on a delete, and that a transaction is kept whole or not at all.

Left out are the columns and calls that the messages' attachments have no part in: titles,
edits, pages and searches.
-/
import Lpm.Lib.Transactions
import Lpm.Lib.Distinct
import Mathlib.Data.Int.Notation

set_option autoImplicit false

namespace Lpm.Notes

open List

open Transactions Distinct

def NO_ROWS : String := "sql: no rows in result set"

/-! ## Tables -/

structure Attachment where
  hash : String
  name : String
  size : ℤ
  mime_type : String
  deriving DecidableEq

structure ChatRow where
  id : String
  updated_ts : ℤ
  deriving DecidableEq

structure MessageRow where
  id : String
  chat_id : String
  ts : ℤ
  text : String
  deriving DecidableEq

structure AttachmentRow where
  message_id : String
  hash : String
  name : String
  size : ℤ
  mime_type : String
  deriving DecidableEq

structure Db where
  chats : List ChatRow
  messages : List MessageRow
  attachments : List AttachmentRow
  deriving DecidableEq

def Attachment.row (message_id : String) (att : Attachment) : AttachmentRow :=
  { message_id, hash := att.hash, name := att.name, size := att.size, mime_type := att.mime_type }

/-! ## Statements -/

/-- `UPDATE chats SET updated_ts = ? WHERE id = ?`, with how many rows it changed. -/
def update_chats (updated_ts : ℤ) (id : String) (db : Db) : ℕ × Db :=
  ((db.chats.filter fun chat => chat.id = id).length,
    { db with chats := db.chats.map fun chat => if chat.id = id then { chat with updated_ts } else chat })

/-- `INSERT INTO messages`: an id is there once. -/
def insert_message (row : MessageRow) (db : Db) : Except String (Unit × Db) :=
  if row.id ∈ db.messages.map MessageRow.id then .error "UNIQUE constraint failed: messages.id"
  else .ok ((), { db with messages := db.messages ++ [row] })

/-- `INSERT INTO attachments`: a message has a hash once, and is there. -/
def insert_attachment (row : AttachmentRow) (db : Db) : Except String (Unit × Db) :=
  if (row.message_id, row.hash) ∈ db.attachments.map fun att => (att.message_id, att.hash) then
    .error "UNIQUE constraint failed: attachments.message_id, attachments.hash"
  else if row.message_id ∉ db.messages.map MessageRow.id then .error "FOREIGN KEY constraint failed"
  else .ok ((), { db with attachments := db.attachments ++ [row] })

/-- `DELETE FROM messages`, with how many rows it deleted. The attachments of each go too. -/
def delete_messages (which : MessageRow → Bool) (db : Db) : ℕ × Db :=
  let deleted := (db.messages.filter which).map MessageRow.id
  (deleted.length,
    { db with
      messages := db.messages.filter fun m => !which m
      attachments := db.attachments.filter fun att => att.message_id ∉ deleted })

variable (id : String)

/-- `DELETE FROM chats WHERE id = ?`, with how many rows it deleted. -/
def delete_chats (db : Db) : ℕ × Db :=
  ((db.chats.filter fun chat => chat.id = id).length,
    { db with chats := db.chats.filter fun chat => chat.id ≠ id })

/-- The hashes of the attachments of some messages, in the order of the rows. -/
def hashes_of (ids : List String) (db : Db) : List String :=
  (db.attachments.filter fun att => att.message_id ∈ ids).map AttachmentRow.hash

/-! ## Calls -/

/-- Rows that are read one by one: the errors of the statement have the label, those of
reading a row have none. -/
def query_rows {α : Type} (label : String) (read : Db → α) : Tx Db α := do
  query label fun _ => ()
  query "" read

/-- Of `candidates`, the hashes with no remaining attachment row. -/
def orphans_among (candidates : List String) : Tx Db (List String) :=
  if candidates = [] then return []
  else do
    let still_ref ← query_rows "notes: count orphan refs: " fun db =>
      pushed [] ((db.attachments.map AttachmentRow.hash).filter fun h => h ∈ candidates)
    return candidates.filter fun h => h ∉ still_ref

/-- Delete a chat and its messages, handing back blob hashes no remaining attachment
references. -/
def delete_chat_tx : Tx Db (List String) := do
  let candidates ← query_rows "notes: read chat attachments: " fun db =>
    pushed [] (hashes_of ((db.messages.filter fun m => m.chat_id = id).map MessageRow.id) db)
  let _ ← statement "notes: delete chat messages: " fun db =>
    .ok (delete_messages (fun m => m.chat_id = id) db)
  let n ← statement "notes: delete chat: " fun db => .ok (delete_chats id db)
  if n = 0 then throw NO_ROWS else orphans_among candidates

/-- Delete a message, handing back now-orphaned blob hashes. -/
def delete_message_tx : Tx Db (List String) := do
  let hashes ← query_rows "notes: read attachment hashes: " fun db => hashes_of [id] db
  let n ← statement "notes: delete message: " fun db =>
    .ok (delete_messages (fun m => m.id = id) db)
  if n = 0 then throw NO_ROWS else orphans_among hashes

def add_message_tx (now : ℤ) (chat_id text : String)
    (attachments : List Attachment) : Tx Db MessageRow := do
  -- the update doubles as the check that the chat exists
  let n ← statement "notes: bump chat: " fun db => .ok (update_chats now chat_id db)
  if n = 0 then throw NO_ROWS
  else do
    statement "notes: insert message: " (insert_message { id, chat_id, ts := now, text })
    attachments.forM fun att =>
      statement "notes: insert attachment: " (insert_attachment (att.row id))
    return { id, chat_id, ts := now, text }

section
variable (faults : ℕ → Option String) (id : String)

def delete_chat (db : Db) : Except String (List String) × Db :=
  transaction (delete_chat_tx id) faults db

def delete_message (db : Db) : Except String (List String) × Db :=
  transaction (delete_message_tx id) faults db

/-- `id` is the one `new_uuid` makes, `now` the time it is. -/
def add_message (now : ℤ) (chat_id text : String) (attachments : List Attachment)
    (db : Db) : Except String MessageRow × Db :=
  if chat_id = "" then (.error "notes: chat id is empty", db)
  else transaction (add_message_tx id now chat_id text attachments) faults db

end

/-! ## What the statements keep -/

/-- The constraints of the schema that the attachments rest on. -/
structure Db.Sound (db : Db) : Prop where
  attached : ∀ att ∈ db.attachments, att.message_id ∈ db.messages.map MessageRow.id
  once : (db.attachments.map fun att => (att.message_id, att.hash)).Nodup

/-- A message that is there has the hash among its attachments. -/
def Referenced (db : Db) (hash : String) : Prop :=
  ∃ m ∈ db.messages, ∃ att ∈ db.attachments, att.message_id = m.id ∧ att.hash = hash

section
variable {db db' : Db} {which : MessageRow → Bool} {ids : List String} {h : String}

variable (hsound : db.Sound)
include hsound

/-- While every attachment has its message, any row is a reference. -/
theorem Db.Sound.referenced_iff :
    Referenced db h ↔ h ∈ db.attachments.map AttachmentRow.hash := by
  constructor
  · rintro ⟨m, -, att, hin, -, rfl⟩
    exact List.mem_map_of_mem hin
  · intro hin
    obtain ⟨att, hatt, rfl⟩ := List.mem_map.mp hin
    obtain ⟨m, hm, hid⟩ := List.mem_map.mp (hsound.attached att hatt)
    exact ⟨m, hm, att, hatt, hid.symm, rfl⟩

omit hsound in
theorem mem_hashes_of : h ∈ hashes_of ids db
    ↔ ∃ att ∈ db.attachments, att.message_id ∈ ids ∧ att.hash = h := by
  rw [hashes_of, List.mem_map]
  constructor
  · rintro ⟨att, hin, rfl⟩
    obtain ⟨hatt, hid⟩ := mem_filter.mp hin
    exact ⟨att, hatt, of_decide_eq_true hid, rfl⟩
  · rintro ⟨att, hatt, hid, rfl⟩
    exact ⟨att, mem_filter.mpr ⟨hatt, decide_eq_true hid⟩, rfl⟩

/-- Messages go with their attachments. -/
theorem Db.Sound.delete_messages (which : MessageRow → Bool) :
    (delete_messages which db).2.Sound := by
  refine ⟨?_, ?_⟩
  · intro att hatt
    obtain ⟨hin, hkept⟩ := mem_filter.mp hatt
    obtain ⟨m, hm, hid⟩ := List.mem_map.mp (hsound.attached att hin)
    have hstays : (!which m) = true := by
      by_contra hgoes
      refine of_decide_eq_true hkept (List.mem_map.mpr ⟨m, mem_filter.mpr ⟨hm, ?_⟩, hid⟩)
      simpa using hgoes
    exact List.mem_map.mpr ⟨m, mem_filter.mpr ⟨hm, hstays⟩, hid⟩
  · exact hsound.once.sublist (filter_sublist.map _)

theorem Db.Sound.update_chats (now : ℤ) (id : String) :
    (update_chats now id db).2.Sound :=
  ⟨hsound.attached, hsound.once⟩

theorem Db.Sound.insert_message {row : MessageRow}
    (hinsert : insert_message row db = .ok ((), db')) : db'.Sound := by
  rw [Notes.insert_message] at hinsert
  split_ifs at hinsert
  obtain ⟨-, rfl⟩ := Prod.mk.inj (Except.ok.inj hinsert)
  refine ⟨?_, hsound.once⟩
  intro att hatt
  rw [map_append]
  exact mem_append_left _ (hsound.attached att hatt)

theorem Db.Sound.insert_attachment {row : AttachmentRow}
    (hinsert : insert_attachment row db = .ok ((), db')) : db'.Sound := by
  rw [Notes.insert_attachment] at hinsert
  split_ifs at hinsert with hnew hmessage
  obtain ⟨-, rfl⟩ := Prod.mk.inj (Except.ok.inj hinsert)
  refine ⟨?_, ?_⟩
  · intro att hatt
    rcases mem_append.mp hatt with hatt | hatt
    · exact hsound.attached att hatt
    · rw [mem_singleton.mp hatt]
      exact hmessage
  · rw [map_append, map_singleton]
    exact hsound.once.append (nodup_singleton _) (disjoint_singleton.mpr hnew)

end

end Lpm.Notes
