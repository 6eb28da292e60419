/-
The escape-sequence decoder that draws a service pane's screen: `termvt.rs`.

A parser takes the output of a pane byte by byte and works on the grid. Nothing in the
bytes can be trusted: sequences are cut short, carry any parameters and arrive at any
place of the screen.
-/
import Lpm.Lib.Utf8
import Lpm.Terminal.Grid

set_option autoImplicit false

open RustText Utf8 Checked

namespace Lpm.Terminal

/-! ## The parser -/

inductive ParserState where
  | ground
  | esc
  | esc_intermediate
  | csi
  | osc
  | osc_esc
  | string
  | string_esc
  deriving DecidableEq

/-- The bytes of a character that has not arrived in full: `Utf8`. -/
structure PartialChar where
  buf : List UInt8 := [0, 0, 0, 0]
  len : ℕ := 0
  need : ℕ := 0

def CSI_MAX_PARAMS : ℕ := 32

structure Parser where
  state : ParserState := .ground
  params : List ℕ := []
  current : Option ℕ := none
  «private» : Option UInt8 := none
  osc : List UInt8 := []
  utf8 : PartialChar := {}
  prompts : List ℤ := []

/-- `panehook::PROMPT_OSC`. -/
def PROMPT_OSC : Str := ['7', '7', '0', '1']

/-- `panehook::EXEC_OSC`. -/
def EXEC_OSC : Str := ['7', '7', '0', '2']

/-- How many cells a character takes. -/
def char_width (ch : Char) : ℕ :=
  let c := ch.toNat
  let within (lo hi : ℕ) : Bool := decide (lo ≤ c) && decide (c ≤ hi)
  if within 0x0300 0x036F || within 0x200B 0x200F || within 0xFE00 0xFE0F || c == 0xFEFF then 0
  else if within 0x1100 0x115F || within 0x2E80 0x303E || within 0x3041 0x33FF
    || within 0x3400 0x4DBF || within 0x4E00 0x9FFF || within 0xA000 0xA4CF
    || within 0xAC00 0xD7A3 || within 0xF900 0xFAFF || within 0xFE30 0xFE6F
    || within 0xFF00 0xFF60 || within 0xFFE0 0xFFE6 || within 0x1F300 0x1F64F
    || within 0x1F900 0x1F9FF || within 0x20000 0x3FFFD then 2
  else 1

def print_char (ch : Char) (g : Grid) : Option Grid :=
  if char_width ch = 0 then g.combine ch else g.put ch (char_width ch)

def tab (g : Grid) : Option Grid := do
  let next := (g.cursor_col / 8 + 1) * 8
  g.move_to g.cursor_row (min next (← sub g.cols 1))

/-- A C0 control, which is executed wherever it stands. -/
def control (b : UInt8) (g : Grid) : Option Grid :=
  if b = 0x08 then some (g.cursor_left 1)
  else if b = 0x09 then tab g
  else if 0x0A ≤ b ∧ b ≤ 0x0C then g.line_feed
  else if b = 0x0D then some { g with cursor_col := 0, wrap_pending := false }
  else some g

namespace Parser

variable (p : Parser)

def escape : Parser :=
  { p with state := .esc, params := [], current := none, «private» := none }

variable (b : UInt8) (g : Grid)

/-- The start of a character, or a control, in the ground state. -/
def ground_start : Option (Parser × Grid) :=
  if b = 0x1B then some (p.escape, g)
  else if b ≤ 0x1F ∨ b = 0x7F then do return (p, ← control b g)
  else if b ≤ 0x7E then do return (p, ← print_char (Char.ofNat b.toNat) g)
  else do
    let need :=
      if 0xC2 ≤ b ∧ b ≤ 0xDF then some 1
      else if 0xE0 ≤ b ∧ b ≤ 0xEF then some 2
      else if 0xF0 ≤ b ∧ b ≤ 0xF4 then some 3
      else none
    match need with
    | none => return (p, ← print_char REPLACEMENT_CHARACTER g)
    | some need =>
      return ({ p with utf8 := { buf := ← set_at p.utf8.buf 0 b, len := 1, need } }, g)

def ground : Option (Parser × Grid) :=
  if p.utf8.need > 0 then
    if 0x80 ≤ b ∧ b ≤ 0xBF then do
      let buf ← set_at p.utf8.buf p.utf8.len b
      let len := p.utf8.len + 1
      let need ← sub p.utf8.need 1
      if need = 0 then
        let text := from_utf8_lossy (← slice buf 0 len)
        let g ← text.foldlM (fun g ch => print_char ch g) g
        return ({ p with utf8 := { buf, len := 0, need } }, g)
      else return ({ p with utf8 := { buf, len, need } }, g)
    else do
      -- a character that breaks off is replaced, and the byte is read afresh
      let p := { p with utf8 := { p.utf8 with len := 0, need := 0 } }
      p.ground_start b (← print_char REPLACEMENT_CHARACTER g)
  else p.ground_start b g

def esc : Option (Parser × Grid) :=
  let p := { p with state := .ground }
  match Char.ofNat b.toNat with
  | '[' => some ({ p with state := .csi, params := [], current := none, «private» := none }, g)
  | ']' => some ({ p with state := .osc, osc := [] }, g)
  | 'P' | 'X' | '^' | '_' => some ({ p with state := .string }, g)
  | '7' => some (p, g.save_cursor)
  | '8' => do return (p, ← g.restore_cursor)
  | 'D' => do return (p, ← g.line_feed)
  | 'E' => do return (p, ← { g with cursor_col := 0 }.line_feed)
  | 'M' => do return (p, ← g.reverse_index)
  | 'c' => do return (p, ← g.reset)
  | '(' | ')' | '*' | '+' | '-' | '.' | '/' | '#' | '%' | ' ' =>
    some ({ p with state := .esc_intermediate }, g)
  | _ => some (p, g)

def push_param : Parser :=
  { p with
    current := none
    params := if p.params.length < CSI_MAX_PARAMS then p.params ++ [p.current.getD 0] else p.params }

/-- A parameter, where an absent one and 0 stand for the default. -/
def arg (n default : ℕ) : ℕ :=
  match p.params[n]? with
  | some 0 | none => default
  | some v => v

/-- `Parser::mode` for one parameter. -/
def switch_mode (set : Bool) (g : Grid) (mode : ℕ) : Option Grid :=
  if mode = 7 then some { g with autowrap := set }
  else if mode = 47 ∨ mode = 1047 ∨ mode = 1049 then
    if set then g.enter_alt_screen else g.leave_alt_screen
  else some g

def mode (set : Bool) (g : Grid) : Option Grid :=
  if p.private = some 0x3F then p.params.foldlM (switch_mode set) g else some g

/-- `u16` from a `usize`. -/
def as_u16 (n : ℕ) : ℕ := n % 65536

def dispatch (final_byte : UInt8) (g : Grid) : Option Grid :=
  let one := p.arg 0 1
  let raw := p.params.head?.getD 0
  match Char.ofNat final_byte.toNat with
  | 'A' => some (g.cursor_up one)
  | 'B' | 'e' => g.cursor_down one
  | 'C' | 'a' => g.cursor_right one
  | 'D' => some (g.cursor_left one)
  | 'E' => do return { (← g.cursor_down one) with cursor_col := 0 }
  | 'F' => some { g.cursor_up one with cursor_col := 0 }
  | 'G' | '`' => do g.move_to g.cursor_row (← sub one 1)
  | 'H' | 'f' => do g.move_to (← sub (p.arg 0 1) 1) (← sub (p.arg 1 1) 1)
  | 'd' => do g.move_to (← sub one 1) g.cursor_col
  | 'J' => g.erase_in_display raw
  | 'K' => g.erase_in_line raw
  | 'L' => g.insert_lines one
  | 'M' => g.delete_lines one
  | '@' => g.insert_chars one
  | 'P' => g.delete_chars one
  | 'X' => g.erase_chars one
  | 'S' => g.scroll_up one
  | 'T' => g.scroll_down one
  | 'r' => do g.set_scroll_region (← sub (p.arg 0 1) 1) (← sub (p.arg 1 (as_u16 g.rows)) 1)
  | 's' => some g.save_cursor
  | 'u' => g.restore_cursor
  | 'h' => p.mode true g
  | 'l' => p.mode false g
  | _ => some g

/-- `u16::saturating_mul` and `saturating_add`, one digit on. -/
def next_digit (n digit : ℕ) : ℕ := min (min (n * 10) 65535 + digit) 65535

def csi : Option (Parser × Grid) :=
  if 0x30 ≤ b ∧ b ≤ 0x39 then
    some ({ p with current := some (next_digit (p.current.getD 0) (b.toNat - 0x30)) }, g)
  else if b = 0x3B ∨ b = 0x3A then some (p.push_param, g)
  else if b = 0x3F ∨ b = 0x3E ∨ b = 0x3C ∨ b = 0x3D ∨ b = 0x21 then
    some ({ p with «private» := some b }, g)
  else if 0x20 ≤ b ∧ b ≤ 0x2F then some (p, g)
  else if 0x40 ≤ b ∧ b ≤ 0x7E then do
    let p := p.push_param
    let g ← p.dispatch b g
    return ({ p with state := .ground }, g)
  else if b = 0x1B then some (p.escape, g)
  else if b ≤ 0x1F then do return (p, ← control b g)
  else some ({ p with state := .ground }, g)

def finish_osc : Option (Parser × Grid) :=
  let payload := from_utf8_lossy p.osc
  let (code, text) := (split_once ';' payload).getD (payload, [])
  let p' := { p with osc := [] }
  if code = ['0'] ∨ code = ['2'] then some (p', { g with title := text })
  else if code = PROMPT_OSC then
    match parse_i32 (trim text) with
    | some status => some ({ p' with prompts := p.prompts ++ [status] }, g)
    | none => some (p', g)
  else if code = EXEC_OSC then do return (p', ← g.cut_to_anchor)
  else some (p', g)

/-- `Parser::osc`. -/
def osc_byte : Option (Parser × Grid) :=
  if p.state = .osc_esc then
    let p := { p with state := .ground }
    if b = 0x5C then p.finish_osc g else some (p, g)
  else if b = 0x07 then do
    let (p, g) ← p.finish_osc g
    return ({ p with state := .ground }, g)
  else if b = 0x1B then some ({ p with state := .osc_esc }, g)
  else some ({ p with osc := if p.osc.length < 4096 then p.osc ++ [b] else p.osc }, g)

/-- `Parser::string`. -/
def string_byte : Parser :=
  if p.state = .string_esc then { p with state := if b = 0x5C then .ground else .string }
  else if b = 0x07 then { p with state := .ground }
  else if b = 0x1B then { p with state := .string_esc }
  else p

def byte : Option (Parser × Grid) :=
  match p.state with
  | .ground => p.ground b g
  | .esc => p.esc b g
  | .esc_intermediate => some ({ p with state := .ground }, g)
  | .csi => p.csi b g
  | .osc | .osc_esc => p.osc_byte b g
  | .string | .string_esc => some (p.string_byte b, g)

end Parser

/-! ## A pane -/

/-- What happens to a pane: a byte of output arrives, or lpm types a line. -/
inductive PaneEvent where
  | byte (b : UInt8)
  | mark_anchor (typed : Str)

def PaneEvent.apply : Parser × Grid → PaneEvent → Option (Parser × Grid)
  | (p, g), .byte b => p.byte b g
  | (p, g), .mark_anchor typed => some (p, g.mark_anchor typed)

/-- A pane of some size after events. -/
def run_pane (cols rows : ℕ) (events : List PaneEvent) : Option (Parser × Grid) :=
  events.foldlM PaneEvent.apply ({}, Grid.new cols rows)

end Lpm.Terminal
