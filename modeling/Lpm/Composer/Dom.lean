/-
The composer's field as a tree of nodes, and what is read of it: `composerDom.ts`.

A text is the list of its UTF-16 code units, as the offsets of the DOM count them. Of a node only
what the reading looks at is kept: an attachment chip has its number, and nothing of what it is
drawn with. A node is named by the way to it from the field, index by index.
-/
import Mathlib.Tactic.Common

set_option autoImplicit false

namespace Lpm.Composer.Canon

abbrev Units := List ℕ

/-- The code units of a text in ASCII. -/
def ascii (s : String) : Units := s.toList.map Char.toNat

def ZWSP : ℕ := 0x200B

def newline : ℕ := 10

/-- Zero-width and format characters, the object replacement character, and control codes. -/
def isStrayChar (ch : ℕ) : Bool :=
  ch ≤ 8 || ch = 0xB || ch = 0xC || (0xE ≤ ch && ch ≤ 0x1F) || ch = 0x7F || ch = ZWSP || ch = 0x2060 || ch = 0xFEFF
    || ch = 0xFFFC

def stripStray (str : Units) : Units := str.filter fun ch => !isStrayChar ch

inductive Dom where
  | text (data : Units)
  /-- An element with a `data-img`. -/
  | chip (img : Units)
  | br
  /-- The inline wrapper of a command, an element with a `data-cmd`. -/
  | cmd (children : List Dom)
  | block (children : List Dom)
  /-- A node that is no text and no element of HTML. -/
  | other

def chipToken (img : Units) : Units := ascii "[Image #" ++ img ++ ascii "]"

/-! ## The parts of a field -/

inductive ComposerPart where
  | text (text : Units)
  | chip (img : Units)
  deriving DecidableEq

/-- The parts so far, and the text that is not yet one. -/
structure Reading where
  parts : List ComposerPart
  text : Units

def Reading.flush (st : Reading) : Reading := ⟨st.parts ++ if st.text ≠ [] then [.text st.text] else [], []⟩

def Reading.endsWithBreak (st : Reading) : Bool :=
  if st.text ≠ [] then st.text.getLast? = some newline
  else
    match st.parts.getLast? with
    | none => true
    | some (.text text) => text.getLast? = some newline
    | some (.chip _) => false

mutual

/-- One node, which may be the field's trailing placeholder. -/
def Dom.visit (pad : Bool) : Dom → Reading → Reading
  | .text data, st => { st with text := st.text ++ stripStray data }
  | .chip img, st => { st.flush with parts := st.flush.parts ++ [.chip img] }
  | .br, st => if pad then st else { st with text := st.text ++ [newline] }
  | .cmd children, st => visit false children st
  | .block children, st =>
    visit false children
      (if 0 < st.parts.length + st.text.length ∧ !st.endsWithBreak then { st with text := st.text ++ [newline] } else st)
  | .other, st => st

def visit (root : Bool) : List Dom → Reading → Reading
  | [], st => st
  | node :: rest, st => visit root rest (node.visit (root && rest.isEmpty) st)

end

/-- The content of a field as runs of text and chips, in order. -/
def readParts (root : List Dom) : List ComposerPart := (visit true root ⟨[], []⟩).flush.parts

def ComposerPart.toText : ComposerPart → Units
  | .text run => run
  | .chip img => chipToken img

def partsToText (parts : List ComposerPart) : Units := parts.flatMap ComposerPart.toText

def serializeEditor (root : List Dom) : Units := partsToText (readParts root)

/-! ## The text up to a point -/

structure DomPoint where
  node : List ℕ
  offset : ℕ
  deriving DecidableEq

/-- The way on to a node, when it goes by a child. -/
def below (target : Option (List ℕ)) (idx : ℕ) : Option (List ℕ) :=
  match target with
  | some (i :: path) => if i = idx then some path else none
  | _ => none

section
variable (chipText : Units → Units) (offset : ℕ)

mutual

/-- One node, with the way on to the point's when it lies there. -/
def Dom.upTo (target : Option (List ℕ)) (pad : Bool) : Dom → Units → Units × Bool
  | .text data, out =>
    if target = some [] then (out ++ stripStray (data.take offset), true) else (out ++ stripStray data, false)
  | .chip img, out => if target = some [] ∧ offset = 0 then (out, true) else (out ++ chipText img, target.isSome)
  | .br, out => (if pad then out else out ++ [newline], false)
  | .cmd children, out => upTo target false children 0 out
  | .block children, out =>
    upTo target false children 0 (if out ≠ [] ∧ out.getLast? ≠ some newline then out ++ [newline] else out)
  | .other, out => (out, false)

/-- The text up to the point, and whether that lies there. -/
def upTo (target : Option (List ℕ)) (root : Bool) : List Dom → ℕ → Units → Units × Bool
  | [], _, out => (out, target = some [])
  | node :: rest, idx, out =>
    if target = some [] ∧ offset ≤ idx then (out, true)
    else
      match node.upTo (below target idx) (root && rest.isEmpty) out with
      | (out, true) => (out, true)
      | (out, false) => upTo target root rest (idx + 1) out

end

end

/-- The serialized text of the field up to a point. One inside a chip counts as after it. -/
def serializedPrefix (root : List Dom) (node : List ℕ) (offset : ℕ) (chipText : Units → Units) : Units :=
  (upTo chipText offset (some node) true root 0 []).1

def pointOffset (root : List Dom) (p : DomPoint) : ℕ := (serializedPrefix root p.node p.offset chipToken).length

end Lpm.Composer.Canon
