/-
Markup: trees of elements and text, how one is written, and rules on what may stand where.

What is written of a tree has each element closed in the order it was opened, and every
character that would be read as markup written as an entity. A text is well formed when it is
what is written of some tree, and rules on the elements are rules on the tree.
-/
import Lpm.Lib.RustText

set_option autoImplicit false

namespace Markup

open List

open RustText

/-! ## Text -/

def push_escaped (c : Char) : Str :=
  if c = '&' then "&amp;".toList else if c = '<' then "&lt;".toList else if c = '>' then "&gt;".toList else [c]

variable (text : Str)

def escape : Str := text.flatMap push_escaped

/-- As the value of an attribute, between double quotes. -/
def escape_attr : Str := (escape text).flatMap fun c => if c = '"' then "&quot;".toList else [c]

theorem gt_notMem_escape : '>' ∉ escape text := by
  intro h
  obtain ⟨c, -, hc⟩ := List.mem_flatMap.mp h
  rw [push_escaped] at hc
  split_ifs at hc with hamp hlt hgt
  · revert hc
    decide
  · revert hc
    decide
  · revert hc
    decide
  · exact hgt (List.mem_singleton.mp hc).symm

theorem gt_notMem_escape_attr : '>' ∉ escape_attr text := by
  intro h
  obtain ⟨c, hc, hin⟩ := List.mem_flatMap.mp h
  split_ifs at hin
  · revert hin
    decide
  · obtain rfl := List.mem_singleton.mp hin
    exact gt_notMem_escape text hc

theorem escape_append (a b : Str) : escape (a ++ b) = escape a ++ escape b := List.flatMap_append

/-! ## Trees -/

/-- Text, a character at a time, and elements with at most one attribute. -/
inductive Node (τ : Type) where
  | text (c : Char)
  | element (tag : τ) (attr : Option (Str × Str)) (children : List (Node τ))

variable {τ : Type}

def write_attr : Option (Str × Str) → Str
  | none => []
  | some (name, value) => ' ' :: (name ++ "=\"".toList ++ escape_attr value ++ "\"".toList)

/-- An element as it is opened, and as it is closed. -/
def opening (name : τ → Str) (tag : τ) (attr : Option (Str × Str)) : Str := '<' :: (name tag ++ write_attr attr ++ ">".toList)

def closing (name : τ → Str) (tag : τ) : Str := '<' :: '/' :: (name tag ++ ">".toList)

mutual

def Node.write (name : τ → Str) : Node τ → Str
  | .text c => push_escaped c
  | .element tag attr children => opening name tag attr ++ write name children ++ closing name tag

/-- The nodes one behind another. -/
def write (name : τ → Str) : List (Node τ) → Str
  | [] => []
  | n :: ns => n.write name ++ write name ns

end

mutual

/-- The characters of text. -/
def Node.size : Node τ → ℕ
  | .text _ => 1
  | .element _ _ children => size children

def size : List (Node τ) → ℕ
  | [] => 0
  | n :: ns => n.size + size ns

end

/-- A rule says of an element, by the elements around it, from the inside out, whether it may
stand there with its attribute and with what it holds. -/
abbrev Rule (τ : Type) := List τ → τ → Option (Str × Str) → List (Node τ) → Prop

mutual

def Node.Placed (rule : Rule τ) (above : List τ) : Node τ → Prop
  | .text _ => True
  | .element tag attr children => rule above tag attr children ∧ Placed rule (tag :: above) children

/-- The nodes and all below them may stand where they are. -/
def Placed (rule : Rule τ) (above : List τ) : List (Node τ) → Prop
  | [] => True
  | n :: ns => n.Placed rule above ∧ Placed rule above ns

end

/-- Text alone. -/
def texts (s : Str) : List (Node τ) := s.map .text

section
variable {name : τ → Str} {rule : Rule τ} {above : List τ} {xs ys : List (Node τ)} {s : Str}

variable (name : τ → Str)

theorem write_append (xs ys : List (Node τ)) : write name (xs ++ ys) = write name xs ++ write name ys := by
  induction xs with
  | nil => rfl
  | cons x xs ih => rw [cons_append, write, write, ih, append_assoc]

theorem size_append (xs ys : List (Node τ)) : size (xs ++ ys) = size xs + size ys := by
  induction xs with
  | nil => exact (Nat.zero_add _).symm
  | cons x xs ih => rw [cons_append, size, size, ih, Nat.add_assoc]

theorem placed_append : Placed rule above (xs ++ ys) ↔ Placed rule above xs ∧ Placed rule above ys := by
  induction xs with
  | nil => simp [Placed]
  | cons x xs ih => rw [cons_append, Placed, Placed, ih, and_assoc]

theorem write_singleton (n : Node τ) : write name [n] = n.write name := by
  rw [write, write, append_nil]

theorem size_singleton (n : Node τ) : size [n] = n.size := by
  rw [size, size, Nat.add_zero]

theorem placed_singleton {n : Node τ} : Placed rule above [n] ↔ n.Placed rule above := by
  simp [Placed]

theorem write_texts (s : Str) : write name (texts s) = escape s := by
  induction s with
  | nil => rfl
  | cons c s ih =>
    rw [texts] at ih
    rw [texts, map_cons, write, ih]
    rfl

theorem size_texts (s : Str) : size (texts s : List (Node τ)) = s.length := by
  induction s with
  | nil => rfl
  | cons c s ih =>
    rw [texts] at ih
    rw [texts, map_cons, size, ih, Node.size, length_cons, Nat.add_comm]

theorem placed_texts (rule : Rule τ) (above : List τ) (s : Str) : Placed rule above (texts s) := by
  induction s with
  | nil => trivial
  | cons c s ih => exact ⟨trivial, ih⟩

end

end Markup
