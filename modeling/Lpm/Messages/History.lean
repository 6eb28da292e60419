/-
The message history of a computer and of those it is connected to.

Each computer keeps what was typed on it in a table, and a page is the newest rows of all of
them behind a cursor. The cursor is the last row received: its moment, its computer and its
number there. A number only orders the rows of its own computer, so for any other it is
translated, by where that computer stands in the order of rows of one moment.
-/
import Lpm.Lib.Paging
import Lpm.Lib.RustText
import Mathlib.Data.List.Infix
import Mathlib.Data.Prod.Lex
import Mathlib.Data.String.Basic

set_option autoImplicit false

open StableSort RustText

namespace Lpm.Messages

def MAX_PAGE : ℤ := 500

def i64_max : ℤ := 2 ^ 63 - 1
def i64_min : ℤ := -2 ^ 63

/-- A row as the table has it; `images` is the text of the column. -/
structure Record where
  seq : ℤ
  id : String
  text : String
  project_name : String
  terminal_id : String
  terminal_label : String
  at_ : ℤ
  favorite : Bool
  folder_id : Option String
  is_draft : Bool
  images : String
  deriving DecidableEq

structure HistoryRow extends Record where
  machine : Option String
  machine_name : Option String
  deriving DecidableEq

structure QueryInput where
  scope : String
  terminal_id : String
  project_name : String
  terminal_label : String
  collection : String
  search : String
  cursor_at : Option ℤ
  cursor_seq : Option ℤ
  limit : ℤ
  machines : Bool
  cursor_machine : Option String

/-- The numbers are given out from 1 on, each once, and the last one never. -/
structure Table where
  rows : List Record
  distinct : rows.Pairwise fun a b => a.seq ≠ b.seq
  positive : ∀ r ∈ rows, 0 < r.seq
  below_max : ∀ r ∈ rows, r.seq < i64_max

/-! ## Names of a paired computer's things -/

def is_slug_char (c : Char) : Bool := c.isDigit || ('a' ≤ c && c ≤ 'f')

/-- `peer-{slug}-{raw}` split into its slug and raw part. -/
def split_peer_name (value : String) : Option (String × String) :=
  match strip_prefix "peer-".toList value.toList with
  | none => none
  | some rest =>
    match strip_prefix ['-'] (rest.drop 8) with
    | none => none
    | some raw =>
      if (rest.take 8).length = 8 ∧ (rest.take 8).all is_slug_char then
        some (.ofList (rest.take 8), .ofList raw)
      else none

def raw_name (name : String) : String := ((split_peer_name name).map Prod.snd).getD name

/-! ## One computer's rows -/

/-- The project under its own name, and as a paired computer's project of that name. -/
def scope_clause (scope project_name : String) (r : Record) : Bool :=
  if scope ≠ "project" then true
  else
    let name := raw_name project_name
    r.project_name = name || (split_peer_name r.project_name).any fun parts => parts.2 = name

def collection_clause (collection : String) (r : Record) : Bool :=
  if collection = "favorites" then r.favorite
  else if collection = "drafts" then r.is_draft
  else if collection ≠ "" ∧ collection ≠ "all" then r.folder_id = some collection
  else true

/-- `LIKE` of an escaped text between two `%`: letters of ASCII match in either case. -/
def like (q : Str) (text : String) : Bool :=
  to_ascii_lowercase q <:+: to_ascii_lowercase text.toList

def search_clause (search : String) (r : Record) : Bool :=
  let q := trim search.toList
  q.isEmpty || like q r.text || like q r.project_name || like q r.terminal_label

variable (input : QueryInput) (r : Record)

def cursor_clause : Bool :=
  match input.cursor_at, input.cursor_seq with
  | some at_, some seq => r.at_ < at_ || (r.at_ = at_ && r.seq < seq)
  | _, _ => true

/-- The rows a query is for, wherever its cursor stands. -/
def wanted : Bool :=
  scope_clause input.scope input.project_name r && collection_clause input.collection r &&
    search_clause input.search r

/-- `at DESC, seq DESC`. -/
def newest : ℤᵒᵈ ×ₗ ℤᵒᵈ := toLex (OrderDual.toDual r.at_, OrderDual.toDual r.seq)

def local_limit (limit : ℤ) : ℕ := (max 1 (min limit MAX_PAGE)).toNat

def Record.row : HistoryRow := { r with machine := none, machine_name := none }

def query_local (table : Table) (input : QueryInput) : List HistoryRow :=
  ((sortBy newest (table.rows.filter fun r => wanted input r && cursor_clause input r)).take
    (local_limit input.limit)).map Record.row

/-! ## All computers' rows -/

/-- This computer's key. -/
def LOCAL : String := ""

def machine_key (row : HistoryRow) : String := row.machine.getD LOCAL

/-- Newest first, then by computer, then newest-inserted first. -/
def page_order (a b : HistoryRow) : Ordering :=
  ((compare b.at_ a.at_).then (compare (machine_key a) (machine_key b))).then (compare b.seq a.seq)

def cursor_for (key : String) : Option ℤ × Option ℤ :=
  match input.cursor_at, input.cursor_seq with
  | some at_, some seq =>
    let seq := match compare key (input.cursor_machine.getD LOCAL) with
      | .eq => seq
      | .gt => i64_max
      | .lt => i64_min
    (some at_, some seq)
  | _, _ => (none, none)

def input_for (key : String) : QueryInput :=
  { input with
    project_name := raw_name input.project_name
    cursor_at := (cursor_for input key).1
    cursor_seq := (cursor_for input key).2
    machines := false
    cursor_machine := none }

def from_peer (slug name : String) (row : HistoryRow) : HistoryRow :=
  { row with
    id := "peer-" ++ slug ++ "-" ++ row.id
    project_name := match split_peer_name row.project_name with
      -- typed there into a project of a computer it is paired with
      | some (_, raw) => raw
      | none => "peer-" ++ slug ++ "-" ++ row.project_name
    folder_id := none
    machine := some slug
    machine_name := some name }

def is_folder (collection : String) : Bool :=
  !(collection = "" || collection = "all" || collection = "favorites" || collection = "drafts")

/-- A computer whose rows are read: this one, or a connected one by its slug. -/
structure Computer where
  key : String
  name : String
  table : Table

/-- What the asking computer makes of a row of this one. -/
def Computer.see (c : Computer) (row : HistoryRow) : HistoryRow :=
  if c.key = LOCAL then row else from_peer c.key c.name row

/-- The connected computers with their names, each with a slug of its own. -/
structure Peers where
  list : List (String × String)
  distinct : (list.map Prod.fst).Nodup
  named : LOCAL ∉ list.map Prod.fst

/-- The rows of this computer, and those of each connected one. -/
structure World where
  here : Table
  peers : Peers
  table : String → Table

variable (w : World) (input : QueryInput)

/-- The computers a query goes to. A folder is this computer's alone. -/
def World.asked : List Computer :=
  ⟨LOCAL, "", w.here⟩ ::
    if is_folder input.collection then []
    else w.peers.list.map fun p => ⟨p.1, p.2, w.table p.1⟩

/-- One page, from computers that answer in time. -/
def World.query : List HistoryRow :=
  (((w.asked input).flatMap fun c =>
    (query_local c.table (input_for input c.key)).map c.see).mergeSort
      fun a b => (page_order a b).isLE).take (max input.limit 1).toNat

/-- The query for the page after a row. -/
def QueryInput.after (cursor : Option HistoryRow) : QueryInput :=
  { input with
    cursor_at := cursor.map fun row => row.at_
    cursor_seq := cursor.map fun row => row.seq
    cursor_machine := cursor.bind fun row => row.machine }

/-- Every row the query is for, of every computer it goes to. -/
def World.rows : List HistoryRow :=
  (w.asked input).flatMap fun c =>
    ((c.table.rows.filter fun r => wanted (input_for input c.key) r).map Record.row).map c.see

end Lpm.Messages
