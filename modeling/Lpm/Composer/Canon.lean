/-
The canonical shape of the composer's field: `composerCanon.ts`.

A flat field holds text, chips and the highlight spans of commands, which hold text. It is
followed as the items it shows in order, characters and chips, whichever nodes the characters
stand in, and its leaves as the code counts over them.
-/
import Lpm.Composer.Dom

set_option autoImplicit false

namespace Lpm.Composer.Canon

open List Option

/-! ## Points -/

inductive Leaf where
  | text (data : Units)
  | chip (img : Units)

def Leaf.isChip : Leaf → Bool
  | .chip _ => true
  | .text _ => false

def Dom.isText : Dom → Bool
  | .text _ => true
  | _ => false

variable (root : List Dom)

def isFlat : Bool :=
  root.all fun node =>
    match node with
    | .text _ => true
    | .chip _ => true
    | .cmd children => children.all Dom.isText
    | _ => false

/-- The text nodes of a highlight span, the first at `idx`. -/
def innerLeaves (path : List ℕ) : ℕ → List Dom → List (List ℕ × Leaf)
  | _, [] => []
  | idx, .text data :: rest => (path ++ [idx], .text data) :: innerLeaves path (idx + 1) rest
  | idx, _ :: rest => innerLeaves path (idx + 1) rest

/-- The leaves among the nodes of the field from `idx` on. -/
def leavesAt : ℕ → List Dom → List (List ℕ × Leaf)
  | _, [] => []
  | idx, .text data :: rest => ([idx], .text data) :: leavesAt (idx + 1) rest
  | idx, .chip img :: rest => ([idx], .chip img) :: leavesAt (idx + 1) rest
  | idx, .cmd children :: rest => innerLeaves [idx] 0 children ++ leavesAt (idx + 1) rest
  | idx, _ :: rest => leavesAt (idx + 1) rest

/-- Text nodes and chips with the ways to them, in order. -/
def leaves : List (List ℕ × Leaf) := leavesAt 0 root

/-- The first and the last index with `k` visible characters before it: `count` of them stand
before `d`. -/
def scan (k : ℕ) : Units → ℕ → ℕ → Option (ℕ × ℕ) → Option (ℕ × ℕ)
  | rest, d, count, span =>
    if k < count then span
    else
      let span := if count = k then some ((span.map Prod.fst).getD d, d) else span
      match rest with
      | [] => span
      | ch :: rest => scan k rest (d + 1) (if isStrayChar ch then count else count + 1) span

/-- The index in a text for `k` visible characters into it, among those the one that is not
flush against a chip. -/
def indexInText (data : Units) (k : ℕ) (prevChip nextChip : Bool) : ℕ :=
  match scan k data 0 0 none with
  | none => data.length
  | some (lo, hi) =>
    let a := if prevChip ∧ lo = 0 ∧ lo < hi then lo + 1 else lo
    let b := if nextChip ∧ hi = data.length ∧ a < hi then hi - 1 else hi
    if prevChip ∧ !nextChip then b else a

/-- Before or after a node, among the nodes that it stands with. -/
def boundary (node : List ℕ) (after : Bool) : DomPoint :=
  ⟨node.dropLast, (node.getLast?.getD 0) + if after then 1 else 0⟩

def isChipAt (lv : List (List ℕ × Leaf)) : Bool := lv.head?.any fun leaf => leaf.2.isChip

/-- The point after a chip, with the leaves behind it. -/
def afterChip (chip : List ℕ) (rest : List (List ℕ × Leaf)) : DomPoint :=
  match rest with
  | (node, .text data) :: more => ⟨node, indexInText data 0 true (isChipAt more)⟩
  | _ => boundary chip true

/-- The point among the leaves from one on, `acc` characters into the text. -/
def pointFrom (offset : ℕ) : List (List ℕ × Leaf) → ℕ → Bool → Option DomPoint
  | [], _, _ => none
  | (node, .chip img) :: rest, acc, _ =>
    let len := (chipToken img).length
    if offset ≤ acc then some (boundary node false)
    else if offset < acc + len then some (afterChip node rest)
    else pointFrom offset rest (acc + len) true
  | (node, .text data) :: rest, acc, prevChip =>
    let real := (stripStray data).length
    if offset ≤ acc + real then some ⟨node, indexInText data (offset - acc) prevChip (isChipAt rest)⟩
    else pointFrom offset rest (acc + real) false

/-- The canonical point for a serialized offset in a flat field. -/
def canonicalPoint (offset : ℕ) : DomPoint :=
  let lv := leaves root
  (pointFrom offset lv 0 false).getD
    (match lv.getLast? with
    | none => ⟨[], root.length⟩
    | some (node, .chip _) => boundary node true
    | some (node, .text data) => ⟨node, data.length⟩)

/-! ## The shape -/

def commonLength : Units → Units → ℕ
  | a :: as, b :: bs => if a = b then commonLength as bs + 1 else 0
  | _, _ => 0

/-- A text rewritten with the smallest deletion and insertion. -/
def setTextMinimal (cur desired : Units) : Units × Bool :=
  if cur = desired then (cur, false)
  else
    let p := commonLength cur desired
    let s := commonLength (cur.drop p).reverse (desired.drop p).reverse
    let del := cur.length - p - s
    let data := cur.take p ++ cur.drop (p + del)
    let ins := (desired.take (desired.length - s)).drop p
    (data.take p ++ ins ++ data.drop p, true)

/-- `normalize` of the DOM puts neighbouring texts together and drops empty ones. -/
def joinText (data : Units) (rest : List Dom) : List Dom :=
  if data = [] then rest
  else
    match rest with
    | .text more :: rest => .text (data ++ more) :: rest
    | rest => .text data :: rest

mutual

def Dom.normalize : Dom → Dom
  | .cmd children => .cmd (normalize children)
  | .block children => .block (normalize children)
  | node => node

def normalize : List Dom → List Dom
  | [] => []
  | node :: rest =>
    match node with
    | .text data => joinText data (normalize rest)
    | node => node.normalize :: normalize rest

end

/-- What the text at `i` of a run of `n` should be. -/
def desired (lead trail : Bool) (n i : ℕ) (data : Units) : Units :=
  let desired := stripStray data
  let desired := if i = 0 ∧ lead then ZWSP :: desired else desired
  if i + 1 = n ∧ trail then desired ++ [ZWSP] else desired

/-- The texts of a highlight span, the first of them the one at `i`. -/
def setInner (f : ℕ → Units → Units × Bool) : ℕ → List Dom → List Dom × Bool
  | _, [] => ([], false)
  | i, .text data :: rest =>
    let (data, changed) := f i data
    let (rest, more) := setInner f (i + 1) rest
    (.text data :: rest, changed || more)
  | i, node :: rest =>
    let (rest, more) := setInner f i rest
    (node :: rest, more)

/-- The texts of a run, set one by one. -/
def setTexts (f : ℕ → Units → Units × Bool) : ℕ → List Dom → List Dom × Bool
  | _, [] => ([], false)
  | i, .text data :: rest =>
    let (data, changed) := f i data
    let (rest, more) := setTexts f (i + 1) rest
    (.text data :: rest, changed || more)
  | i, .cmd children :: rest =>
    let (inner, changed) := setInner f i children
    let (rest, more) := setTexts f (i + (innerLeaves [] 0 children).length) rest
    (.cmd inner :: rest, changed || more)
  | i, node :: rest =>
    let (rest, more) := setTexts f i rest
    (node :: rest, more)

/-- The texts of a run of nodes. -/
def texts (run : List Dom) : List Units :=
  (leaves run).filterMap fun leaf =>
    match leaf.2 with
    | .text data => some data
    | .chip _ => none

/-- The nodes between two chips, or an end of the field. -/
def settle (prev next : Option Units) (nodes : List Dom) : List Dom × Bool :=
  let run := texts nodes
  let real := (run.map stripStray).flatten
  let lead := prev.isSome && (real.isEmpty || real.head? = some newline)
  let trail := next.isSome || real.getLast? = some newline
  if run.isEmpty then
    if lead || trail then (nodes ++ [.text (if lead && trail && next.isSome then [ZWSP, ZWSP] else [ZWSP])], true)
    else (nodes, false)
  else setTexts (fun i data => setTextMinimal data (desired lead trail run.length i data)) 0 nodes

/-- The nodes from a chip or the beginning on, with the run since. -/
def settleFrom : Option Units → List Dom → List Dom → List Dom × Bool
  | prev, nodes, [] => settle prev none nodes
  | prev, nodes, .chip img :: rest =>
    let (before, changed) := settle prev (some img) nodes
    let (after, more) := settleFrom (some img) [] rest
    (before ++ .chip img :: after, changed || more)
  | prev, nodes, node :: rest => settleFrom prev (nodes ++ [node]) rest

variable (root : List Dom)

/-- The anchors are put where they should stand, and every other stray character is stripped. -/
def fixAnchors : List Dom × Bool := settleFrom none [] (normalize root)

/-! ## The items of a flat field -/

/-- What a field shows, in order. -/
inductive Item where
  | unit (ch : ℕ)
  | chip (img : Units)
  deriving DecidableEq

def units (data : Units) : List Item := data.map .unit

def Dom.items : Dom → List Item
  | .text data => units data
  | .chip img => [.chip img]
  | .cmd children =>
    children.flatMap fun child =>
      match child with
      | .text data => units data
      | _ => []
  | _ => []

def items : List Item := root.flatMap Dom.items

/-- What an item adds to the serialized value. -/
def Item.toText : Item → Units
  | .unit ch => if isStrayChar ch then [] else [ch]
  | .chip img => chipToken img

def Leaf.items : Leaf → List Item
  | .text data => units data
  | .chip img => [.chip img]

def Leaf.toText : Leaf → Units
  | .text data => stripStray data
  | .chip img => chipToken img

/-- What the leaves add to the serialized value. -/
def leafText (lv : List (List ℕ × Leaf)) : Units := lv.flatMap fun leaf => leaf.2.toText

section
variable {root rest : List Dom} {node : Dom} {out data : Units} {idx offset : ℕ} {path : List ℕ}

theorem isFlat_cons : isFlat (node :: rest) = true ↔ isFlat [node] = true ∧ isFlat rest = true := by
  simp [isFlat]

/-- A node of a flat field is a text, a chip or a span of texts. -/
theorem flat_cases (h : isFlat [node] = true) :
    (∃ data, node = .text data) ∨ (∃ img, node = .chip img) ∨ ∃ children, node = .cmd children ∧ children.all Dom.isText = true := by
  rw [isFlat, all_cons, all_nil, Bool.and_true] at h
  cases node with
  | text data => exact .inl ⟨data, rfl⟩
  | chip img => exact .inr (.inl ⟨img, rfl⟩)
  | cmd children => exact .inr (.inr ⟨children, rfl, h⟩)
  | br | block _ | other => exact nomatch h

/-- A text is one. -/
theorem text_of_all (h : (node :: rest).all Dom.isText = true) : (∃ data, node = .text data) ∧ rest.all Dom.isText = true := by
  rw [all_cons, Bool.and_eq_true] at h
  cases node with
  | text data => exact ⟨⟨data, rfl⟩, h.2⟩
  | chip _ | br | cmd _ | block _ | other => exact nomatch h.1

theorem toText_units (data : Units) : (units data).flatMap Item.toText = stripStray data := by
  induction data with
  | nil => rfl
  | cons ch data ih =>
    rw [units] at ih
    rw [units, map_cons, flatMap_cons, ih, Item.toText, stripStray, stripStray]
    by_cases hch : isStrayChar ch = true
    · rw [if_pos hch, filter_cons_of_neg (by simp [hch])]
      rfl
    · rw [if_neg hch, filter_cons_of_pos (by simp [hch])]
      rfl

/-! ### The serialized value -/

/-- What was read so far. -/
def Reading.read (st : Reading) : Units := partsToText st.parts ++ st.text

theorem partsToText_append (a b : List ComposerPart) : partsToText (a ++ b) = partsToText a ++ partsToText b := flatMap_append

theorem flush_read (st : Reading) : partsToText st.flush.parts = st.read := by
  rw [Reading.flush, Reading.read, partsToText_append]
  by_cases htext : st.text = []
  · rw [htext]
    rfl
  · rw [if_pos htext]
    congr 1
    rw [partsToText, flatMap_singleton, ComposerPart.toText]

theorem visit_texts (h : rest.all Dom.isText = true) (top : Bool) (st : Reading) :
    (visit top rest st).read = st.read ++ (Dom.cmd rest).items.flatMap Item.toText := by
  induction rest generalizing st with
  | nil =>
    rw [visit, Dom.items, flatMap_nil, flatMap_nil, append_nil]
  | cons node rest ih =>
    obtain ⟨⟨data, rfl⟩, hrest⟩ := text_of_all h
    rw [visit, ih hrest, Dom.visit, Reading.read, Reading.read]
    rw [Dom.items, Dom.items, flatMap_cons, flatMap_append, toText_units]
    simp only [append_assoc]

theorem visit_flat (h : isFlat root = true) (top : Bool) (st : Reading) :
    (visit top root st).read = st.read ++ (items root).flatMap Item.toText := by
  induction root generalizing st with
  | nil => rw [visit, items, flatMap_nil, flatMap_nil, append_nil]
  | cons node root ih =>
    obtain ⟨hnode, hroot⟩ := isFlat_cons.mp h
    rw [visit, ih hroot, items, items, flatMap_cons, flatMap_append, ← append_assoc]
    congr 1
    rcases flat_cases hnode with ⟨data, rfl⟩ | ⟨img, rfl⟩ | ⟨children, rfl, hchildren⟩
    · rw [Dom.visit, Dom.items, toText_units, Reading.read, Reading.read, append_assoc]
    · have hflush := flush_read st
      have htext : st.flush.text = [] := rfl
      rw [Dom.visit, Reading.read, partsToText_append, hflush, htext, append_nil]
      rfl
    · rw [Dom.visit, visit_texts hchildren]

/-- The value of a flat field is read off its items. -/
theorem serializeEditor_flat (h : isFlat root = true) : serializeEditor root = (items root).flatMap Item.toText := by
  rw [serializeEditor, readParts, flush_read, visit_flat h]
  rfl

theorem innerLeaves_items (path : List ℕ) (idx : ℕ) (children : List Dom) :
    ((innerLeaves path idx children).flatMap fun leaf => leaf.2.items) = (Dom.cmd children).items := by
  induction children generalizing idx with
  | nil => rfl
  | cons child children ih =>
    cases child with
    | text data =>
      rw [innerLeaves, flatMap_cons, ih, Leaf.items, Dom.items, Dom.items, flatMap_cons]
    | chip _ | br | cmd _ | block _ | other => exact ih (idx + 1)

theorem leavesAt_items (idx : ℕ) (root : List Dom) : ((leavesAt idx root).flatMap fun leaf => leaf.2.items) = items root := by
  induction root generalizing idx with
  | nil => rfl
  | cons node root ih =>
    cases node with
    | text _ | chip _ => rw [leavesAt, flatMap_cons, ih, items, items, flatMap_cons]; rfl
    | cmd children => rw [leavesAt, flatMap_append, innerLeaves_items, ih, items, items, flatMap_cons]
    | br | block _ | other => exact ih (idx + 1)

/-! ### The text up to a point -/

theorem leafText_append (a b : List (List ℕ × Leaf)) : leafText (a ++ b) = leafText a ++ leafText b := flatMap_append

theorem leafText_cons (leaf : List ℕ × Leaf) (lv : List (List ℕ × Leaf)) : leafText (leaf :: lv) = leaf.2.toText ++ leafText lv :=
  flatMap_cons

theorem leafText_eq (lv : List (List ℕ × Leaf)) : leafText lv = (lv.flatMap fun leaf => leaf.2.items).flatMap Item.toText := by
  induction lv with
  | nil => rfl
  | cons leaf lv ih =>
    rw [leafText_cons, flatMap_cons, flatMap_append, ih]
    congr 1
    obtain ⟨path, data | img⟩ := leaf
    · exact (toText_units data).symm
    · exact (append_nil _).symm

theorem leafText_leavesAt (idx : ℕ) (root : List Dom) : leafText (leavesAt idx root) = (items root).flatMap Item.toText := by
  rw [leafText_eq, leavesAt_items]

theorem leavesAt_cons (idx : ℕ) (node : Dom) (rest : List Dom) :
    leavesAt idx (node :: rest) = leavesAt idx [node] ++ leavesAt (idx + 1) rest := by
  cases node with
  | text _ | chip _ | br | block _ | other => rfl
  | cmd children => rw [leavesAt, leavesAt, leavesAt, append_nil]

theorem split_append {α : Type} {a b before after : List α} {x : α} (h : a ++ b = before ++ x :: after) :
    (∃ more, a = before ++ x :: more) ∨ ∃ later, before = a ++ later ∧ b = later ++ x :: after := by
  rcases append_eq_append_iff.mp h with ⟨later, hbefore, hb⟩ | ⟨more, ha, hx⟩
  · exact .inr ⟨later, hbefore, hb⟩
  · cases more with
    | nil => exact .inr ⟨[], by rw [ha, append_nil, append_nil], hx.symm⟩
    | cons y more =>
      obtain ⟨rfl, -⟩ := List.cons.inj hx
      exact .inl ⟨more, ha⟩

variable {leaf : List ℕ × Leaf}

theorem innerLeaves_path {path : List ℕ} {idx : ℕ} {children : List Dom}
    (h : leaf ∈ innerLeaves path idx children) : ∃ k, idx ≤ k ∧ leaf.1 = path ++ [k] := by
  induction children generalizing idx with
  | nil => exact nomatch h
  | cons child children ih =>
    have hlater : leaf ∈ innerLeaves path (idx + 1) children → ∃ k, idx ≤ k ∧ leaf.1 = path ++ [k] := by
      intro h
      obtain ⟨k, hk, hpath⟩ := ih h
      exact ⟨k, by omega, hpath⟩
    cases child with
    | text data =>
      rcases mem_cons.mp h with rfl | h
      · exact ⟨idx, Nat.le_refl _, rfl⟩
      · exact hlater h
    | chip _ | br | cmd _ | block _ | other => exact hlater h

/-- The way to a leaf goes by a node of the field. -/
theorem leavesAt_path (h : leaf ∈ leavesAt idx root) : ∃ i path, idx ≤ i ∧ leaf.1 = i :: path := by
  induction root generalizing idx with
  | nil => exact nomatch h
  | cons node root ih =>
    have hlater : leaf ∈ leavesAt (idx + 1) root → ∃ i path, idx ≤ i ∧ leaf.1 = i :: path := by
      intro h
      obtain ⟨i, path, hi, hpath⟩ := ih h
      exact ⟨i, path, by omega, hpath⟩
    cases node with
    | text _ | chip _ =>
      rcases mem_cons.mp h with rfl | h
      · exact ⟨idx, [], Nat.le_refl _, rfl⟩
      · exact hlater h
    | cmd children =>
      rcases mem_append.mp h with h | h
      · obtain ⟨k, -, hpath⟩ := innerLeaves_path h
        exact ⟨idx, [k], Nat.le_refl _, hpath⟩
      · exact hlater h
    | br | block _ | other => exact hlater h

theorem below_of_lt {i : ℕ} (h : idx < i) (path : List ℕ) : below (some (i :: path)) idx = none := by
  rw [below, if_neg (by omega)]

/-- Texts that the point does not lie in. -/
theorem upTo_texts (h : rest.all Dom.isText = true) (offset : ℕ) (top : Bool) (path : List ℕ) (idx : ℕ) (out : Units) :
    upTo chipToken offset none top rest idx out = (out ++ leafText (innerLeaves path idx rest), false) := by
  induction rest generalizing idx out with
  | nil => rw [upTo, innerLeaves, leafText, flatMap_nil, append_nil]; rfl
  | cons node rest ih =>
    obtain ⟨⟨data, rfl⟩, hrest⟩ := text_of_all h
    have hbelow : below none idx = none := rfl
    rw [upTo, if_neg (fun h => nomatch h.1), hbelow, Dom.upTo, if_neg (fun h => nomatch h)]
    dsimp only
    rw [ih hrest, innerLeaves, leafText_cons, append_assoc]
    rfl

/-- A node that the point does not lie in. -/
theorem upTo_node (h : isFlat [node] = true) (offset : ℕ) (pad : Bool) (idx : ℕ) (out : Units) :
    node.upTo chipToken offset none pad out = (out ++ leafText (leavesAt idx [node]), false) := by
  rcases flat_cases h with ⟨data, rfl⟩ | ⟨img, rfl⟩ | ⟨children, rfl, hchildren⟩
  · rw [Dom.upTo, if_neg (fun h => nomatch h)]
    simp [leavesAt, leafText, Leaf.toText]
  · rw [Dom.upTo, if_neg (fun h => nomatch h.1)]
    simp [leavesAt, leafText, Leaf.toText]
  · rw [Dom.upTo, upTo_texts hchildren offset false [idx], leavesAt, leavesAt, append_nil]

variable {before after : List (List ℕ × Leaf)}

/-- A point in a text of a span. -/
theorem upTo_inner {k : ℕ} (h : rest.all Dom.isText = true)
    (hsplit : innerLeaves path idx rest = before ++ (path ++ [k], .text data) :: after) (offset : ℕ) (out : Units) :
    upTo chipToken offset (some [k]) false rest idx out = (out ++ leafText before ++ stripStray (data.take offset), true) := by
  induction rest generalizing idx out before with
  | nil =>
    rw [innerLeaves] at hsplit
    exact absurd hsplit.symm (append_ne_nil_of_right_ne_nil _ (cons_ne_nil _ _))
  | cons node rest ih =>
    obtain ⟨⟨more, rfl⟩, hrest⟩ := text_of_all h
    rw [innerLeaves] at hsplit
    rw [upTo, if_neg (fun h => nomatch h.1)]
    cases before with
    | nil =>
      obtain ⟨hleaf, -⟩ := List.cons.inj hsplit
      obtain ⟨hpath, hdata⟩ := Prod.mk.inj hleaf
      obtain rfl := Leaf.text.inj hdata
      obtain rfl := singleton_inj.mp (append_cancel_left hpath)
      rw [below, if_pos rfl, Dom.upTo, if_pos rfl]
      rw [leafText, flatMap_nil, append_nil]
    | cons leaf before =>
      obtain ⟨rfl, hlater⟩ := List.cons.inj hsplit
      have hin : (path ++ [k], Leaf.text data) ∈ innerLeaves path (idx + 1) rest := by
        rw [hlater]
        exact mem_append_right _ mem_cons_self
      obtain ⟨k', hk, hpath⟩ := innerLeaves_path hin
      obtain rfl := singleton_inj.mp (append_cancel_left hpath)
      rw [below_of_lt (by omega), Dom.upTo, if_neg (fun h => nomatch h)]
      dsimp only
      rw [ih hrest hlater, leafText_cons]
      simp only [append_assoc]
      rfl

/-- A list of one parts in one way. -/
theorem alone {α : Type} {x y : α} {l r : List α} (h : [x] = l ++ y :: r) : l = [] ∧ x = y := by
  cases l with
  | nil => exact ⟨rfl, (List.cons.inj h).1⟩
  | cons z l => exact absurd (List.cons.inj h).2.symm (append_ne_nil_of_right_ne_nil _ (cons_ne_nil _ _))

/-- A point in a text. -/
theorem upTo_text (h : isFlat root = true)
    (hsplit : leavesAt idx root = before ++ (path, .text data) :: after) (offset : ℕ) (out : Units) :
    upTo chipToken offset (some path) true root idx out = (out ++ leafText before ++ stripStray (data.take offset), true) := by
  induction root generalizing idx out before with
  | nil =>
    rw [leavesAt] at hsplit
    exact absurd hsplit.symm (append_ne_nil_of_right_ne_nil _ (cons_ne_nil _ _))
  | cons node root ih =>
    obtain ⟨hnode, hroot⟩ := isFlat_cons.mp h
    rw [leavesAt_cons] at hsplit
    rcases split_append hsplit with ⟨more, hhere⟩ | ⟨later, rfl, hlater⟩
    -- the point lies in this node
    · rcases flat_cases hnode with ⟨data', rfl⟩ | ⟨img, rfl⟩ | ⟨children, rfl, hchildren⟩
      · rw [leavesAt, leavesAt] at hhere
        obtain ⟨rfl, hleaf⟩ := alone hhere
        obtain ⟨rfl, hdata⟩ := Prod.mk.inj hleaf
        obtain rfl := Leaf.text.inj hdata
        rw [upTo, if_neg (fun h => nomatch h.1), below, if_pos rfl, Dom.upTo, if_pos rfl, leafText, flatMap_nil,
          append_nil]
      · rw [leavesAt, leavesAt] at hhere
        exact nomatch (Prod.mk.inj (alone hhere).2).2
      · rw [leavesAt, leavesAt, append_nil] at hhere
        have hin : (path, Leaf.text data) ∈ innerLeaves [idx] 0 children := by
          rw [hhere]
          exact mem_append_right _ mem_cons_self
        obtain ⟨k, -, hpath⟩ := innerLeaves_path hin
        dsimp only at hpath
        subst hpath
        rw [upTo, if_neg (fun h => nomatch h.1), singleton_append, below, if_pos rfl, Dom.upTo, upTo_inner hchildren hhere]
    -- the point lies further on
    · have hin : (path, Leaf.text data) ∈ leavesAt (idx + 1) root := by
        rw [hlater]
        exact mem_append_right _ mem_cons_self
      obtain ⟨i, path', hi, hpath⟩ := leavesAt_path hin
      dsimp only at hpath
      subst hpath
      rw [upTo, if_neg (fun h => nomatch h.1), below_of_lt (by omega), upTo_node hnode offset _ idx]
      dsimp only
      rw [ih hroot hlater, leafText_append]
      simp only [append_assoc]

/-- The points before and after a chip. -/
theorem upTo_chip {img : Units} {i : ℕ} (h : isFlat root = true)
    (hsplit : leavesAt idx root = before ++ ([i], .chip img) :: after) (out : Units) :
    upTo chipToken i (some []) true root idx out = (out ++ leafText before, true)
      ∧ upTo chipToken (i + 1) (some []) true root idx out = (out ++ leafText before ++ chipToken img, true) := by
  induction root generalizing idx out before with
  | nil =>
    rw [leavesAt] at hsplit
    exact absurd hsplit.symm (append_ne_nil_of_right_ne_nil _ (cons_ne_nil _ _))
  | cons node root ih =>
    obtain ⟨hnode, hroot⟩ := isFlat_cons.mp h
    have hbelow : below (some []) idx = none := rfl
    rw [leavesAt_cons] at hsplit
    -- the chip is this node, or comes behind it
    rcases split_append hsplit with ⟨more, hhere⟩ | ⟨later, rfl, hlater⟩
    · rcases flat_cases hnode with ⟨data', rfl⟩ | ⟨img', rfl⟩ | ⟨children, rfl, hchildren⟩
      · rw [leavesAt, leavesAt] at hhere
        exact nomatch (Prod.mk.inj (alone hhere).2).2
      · rw [leavesAt, leavesAt] at hhere
        obtain ⟨rfl, hleaf⟩ := alone hhere
        obtain ⟨hpath, himg⟩ := Prod.mk.inj hleaf
        obtain rfl := Leaf.chip.inj himg
        obtain rfl := singleton_inj.mp hpath
        constructor
        · rw [upTo, if_pos ⟨rfl, Nat.le_refl _⟩, leafText, flatMap_nil, append_nil]
        · rw [upTo, if_neg (by omega), hbelow, Dom.upTo, if_neg (fun h => nomatch h.1), leafText, flatMap_nil,
            append_nil]
          dsimp only [isSome_none]
          cases root with
          | nil => rw [upTo]; rfl
          | cons next root => rw [upTo, if_pos ⟨rfl, Nat.le_refl _⟩]
      · rw [leavesAt, leavesAt, append_nil] at hhere
        -- the path of a chip has one step, so it is in no command
        have hin : ([i], Leaf.chip img) ∈ innerLeaves [idx] 0 children := by
          rw [hhere]
          exact mem_append_right _ mem_cons_self
        obtain ⟨k, -, hpath⟩ := innerLeaves_path hin
        exact nomatch (List.cons.inj hpath).2
    · have hin : ([i], Leaf.chip img) ∈ leavesAt (idx + 1) root := by
        rw [hlater]
        exact mem_append_right _ mem_cons_self
      obtain ⟨i', path', hi, hpath⟩ := leavesAt_path hin
      obtain ⟨rfl, -⟩ := List.cons.inj hpath
      obtain ⟨hbefore, hafter⟩ := ih hroot hlater (out ++ leafText (leavesAt idx [node]))
      constructor
      · rw [upTo, if_neg (by omega), hbelow, upTo_node hnode i _ idx]
        dsimp only
        rw [hbefore, leafText_append, append_assoc]
      · rw [upTo, if_neg (by omega), hbelow, upTo_node hnode (i + 1) _ idx]
        dsimp only
        rw [hafter, leafText_append]
        simp only [append_assoc]

end

/-! ## The point of an offset -/

/-- The visible characters before an index. -/
def visible (data : Units) (d : ℕ) : ℕ := (stripStray (data.take d)).length

section
variable {data before rest : Units} {k d lo hi : ℕ} {span : Option (ℕ × ℕ)}

theorem visible_mono {d' : ℕ} (h : d ≤ d') (data : Units) : visible data d ≤ visible data d' := by
  have hsub : (data.take d).Sublist (data.take d') := take_sublist_take_left h
  exact (hsub.filter _).length_le

theorem stripStray_append (a b : Units) : stripStray (a ++ b) = stripStray a ++ stripStray b := filter_append _ _

/-- Both ends of the span stand behind `k` visible characters. -/
structure Spans (data : Units) (k : ℕ) (lo hi : ℕ) : Prop where
  le : lo ≤ hi
  lo : visible data lo = k
  hi : visible data hi = k

theorem Spans.between (h : Spans data k lo hi) (hlo : lo ≤ d) (hhi : d ≤ hi) : visible data d = k := by
  have h1 := visible_mono hlo data
  have h2 := visible_mono hhi data
  rw [h.lo] at h1
  rw [h.hi] at h2
  omega

/-- The span with the index at `d`. -/
def marked (k d count : ℕ) (span : Option (ℕ × ℕ)) : Option (ℕ × ℕ) :=
  if count = k then some ((span.map Prod.fst).getD d, d) else span

variable {count : ℕ}

theorem scan_over (h : k < count) (rest : Units) (d : ℕ) (span : Option (ℕ × ℕ)) : scan k rest d count span = span := by
  cases rest with
  | nil => rw [scan, if_pos h]
  | cons ch rest => rw [scan, if_pos h]

theorem scan_nil (h : ¬k < count) (d : ℕ) (span : Option (ℕ × ℕ)) : scan k [] d count span = marked k d count span := by
  rw [scan, if_neg h]
  rfl

theorem scan_cons (h : ¬k < count) (ch : ℕ) (rest : Units) (d : ℕ) (span : Option (ℕ × ℕ)) :
    scan k (ch :: rest) d count span = scan k rest (d + 1) (if isStrayChar ch then count else count + 1) (marked k d count span) := by
  rw [scan, if_neg h]
  rfl

/-- The span stays right with an index that has `k` visible characters before it. -/
theorem marked_spans (hspan : ∀ lo hi, span = some (lo, hi) → Spans data k lo hi ∧ hi ≤ d) {lo hi : ℕ}
    (h : marked k d (visible data d) span = some (lo, hi)) : Spans data k lo hi ∧ hi ≤ d := by
  rw [marked] at h
  by_cases hk : visible data d = k
  · rw [if_pos hk] at h
    cases h
    cases span with
    | none => exact ⟨⟨Nat.le_refl _, hk, hk⟩, Nat.le_refl _⟩
    | some range =>
      obtain ⟨hrange, hle⟩ := hspan range.1 range.2 rfl
      exact ⟨⟨Nat.le_trans hrange.le hle, hrange.lo, hk⟩, Nat.le_refl _⟩
  · rw [if_neg hk] at h
    exact hspan lo hi h

theorem marked_isSome (h : count = k ∨ span.isSome = true) : (marked k d count span).isSome = true := by
  rw [marked]
  by_cases hk : count = k
  · rw [if_pos hk]
    rfl
  · rw [if_neg hk]
    exact h.resolve_left hk

/-- What the scan found is right, whatever it goes on to find. -/
theorem scan_spans (hspan : ∀ lo hi, span = some (lo, hi) → Spans (before ++ rest) k lo hi ∧ hi ≤ before.length)
    (h : scan k rest before.length (stripStray before).length span = some (lo, hi)) : Spans (before ++ rest) k lo hi := by
  induction rest generalizing before span with
  | nil =>
    by_cases hover : k < (stripStray before).length
    · rw [scan_over hover] at h
      exact (hspan lo hi h).1
    · have hhere : (stripStray before).length = visible (before ++ []) before.length := by rw [visible, take_left' rfl]
      rw [scan_nil hover, hhere] at h
      exact (marked_spans hspan h).1
  | cons ch rest ih =>
    by_cases hover : k < (stripStray before).length
    · rw [scan_over hover] at h
      exact (hspan lo hi h).1
    · have hhere : (stripStray before).length = visible (before ++ ch :: rest) before.length := by
        rw [visible, take_left' rfl]
      have hnext : before ++ ch :: rest = (before ++ [ch]) ++ rest := by rw [append_assoc, singleton_append]
      have hcount : (if isStrayChar ch = true then (stripStray before).length else (stripStray before).length + 1)
          = (stripStray (before ++ [ch])).length := by
        rw [stripStray_append, length_append, stripStray, stripStray]
        by_cases hch : isStrayChar ch = true
        · rw [if_pos hch, filter_cons_of_neg (by simp [hch])]
          rfl
        · rw [if_neg hch, filter_cons_of_pos (by simp [hch])]
          rfl
      have hlen : before.length + 1 = (before ++ [ch]).length := by rw [length_append, length_singleton]
      rw [scan_cons hover, hcount, hlen] at h
      rw [hnext]
      refine ih ?_ h
      intro lo' hi' hspan'
      rw [hhere] at hspan'
      obtain ⟨h1, h2⟩ := marked_spans hspan hspan'
      rw [hnext] at h1
      exact ⟨h1, by rw [← hlen]; omega⟩

/-- The scan finds an index for as many characters as there are. -/
theorem scan_isSome (h : span.isSome = true ∨ (count ≤ k ∧ k ≤ count + (stripStray rest).length)) :
    (scan k rest d count span).isSome = true := by
  induction rest generalizing d count span with
  | nil =>
    have hnil : (stripStray []).length = 0 := rfl
    rw [hnil] at h
    by_cases hover : k < count
    · rw [scan_over hover]
      exact h.resolve_right (by omega)
    · rw [scan_nil hover]
      exact marked_isSome (h.elim .inr fun h => .inl (by omega))
  | cons ch rest ih =>
    by_cases hover : k < count
    · rw [scan_over hover]
      exact h.resolve_right (by omega)
    · rw [scan_cons hover]
      apply ih
      by_cases hk : count = k
      · exact .inl (marked_isSome (.inl hk))
      · rcases h with h | ⟨h1, h2⟩
        · exact .inl (marked_isSome (.inr h))
        · right
          rw [stripStray] at h2
          by_cases hch : isStrayChar ch = true
          · rw [filter_cons_of_neg (by simp [hch]), ← stripStray] at h2
            rw [if_pos hch]
            exact ⟨h1, h2⟩
          · rw [filter_cons_of_pos (by simp [hch]), ← stripStray, length_cons] at h2
            rw [if_neg hch]
            omega

/-- The index in a text has as many visible characters before it as it was asked for. -/
theorem visible_indexInText (h : k ≤ (stripStray data).length) (prevChip nextChip : Bool) :
    visible data (indexInText data k prevChip nextChip) = k := by
  have hsome := @scan_isSome data k 0 none 0 (.inr ⟨Nat.zero_le _, by omega⟩)
  rw [indexInText]
  cases hscan : scan k data 0 0 none with
  | none =>
    rw [hscan] at hsome
    exact nomatch hsome
  | some range =>
    obtain ⟨lo, hi⟩ := range
    have hspans : Spans data k lo hi := @scan_spans [] data k lo hi none nofun hscan
    have hle := hspans.le
    dsimp only
    generalize ha : (if prevChip = true ∧ lo = 0 ∧ lo < hi then lo + 1 else lo) = a
    have hafter : lo ≤ a ∧ a ≤ hi := by
      rw [← ha]
      split_ifs with hmove
      · omega
      · omega
    generalize hb : (if nextChip = true ∧ hi = data.length ∧ a < hi then hi - 1 else hi) = b
    have hbefore : lo ≤ b ∧ b ≤ hi := by
      rw [← hb]
      split_ifs with hmove
      · omega
      · omega
    split_ifs
    · exact hspans.between hbefore.1 hbefore.2
    · exact hspans.between hafter.1 hafter.2

end

/-- The offset lies inside the token of a chip, which ends at `stop`. -/
def Inside (root : List Dom) (offset stop : ℕ) : Prop :=
  ∃ before node img after, leaves root = before ++ (node, .chip img) :: after ∧ (leafText before).length < offset ∧ offset < stop
    ∧ stop = (leafText before).length + (chipToken img).length

/-- The point stands for the offset, or for the end of the token that the offset lies in. -/
structure Seats (root : List Dom) (offset : ℕ) (p : DomPoint) : Prop where
  inside : ∀ stop, Inside root offset stop → pointOffset root p = stop
  outside : (¬∃ stop, Inside root offset stop) → pointOffset root p = offset

section
variable {root : List Dom} {before after rest : List (List ℕ × Leaf)} {node : List ℕ} {leaf : List ℕ × Leaf} {img data : Units}
  {offset : ℕ} {p : DomPoint}

theorem splits {before' after' : List (List ℕ × Leaf)} {leaf' : List ℕ × Leaf}
    (h : before ++ leaf :: after = before' ++ leaf' :: after') :
    (before = before' ∧ leaf = leaf') ∨ (∃ more, before' = before ++ leaf :: more) ∨ ∃ more, before = before' ++ leaf' :: more := by
  rcases append_eq_append_iff.mp h with ⟨more, rfl, hmore⟩ | ⟨more, rfl, hmore⟩
  · cases more with
    | nil => exact .inl ⟨(append_nil _).symm, (List.cons.inj hmore).1⟩
    | cons x more => exact .inr (.inl ⟨more, by rw [(List.cons.inj hmore).1]⟩)
  · cases more with
    | nil => exact .inl ⟨append_nil _, (List.cons.inj hmore).1.symm⟩
    | cons x more => exact .inr (.inr ⟨more, by rw [(List.cons.inj hmore).1]⟩)

theorem length_leafText_split (before after : List (List ℕ × Leaf)) (leaf : List ℕ × Leaf) :
    (leafText (before ++ leaf :: after)).length
      = (leafText before).length + leaf.2.toText.length + (leafText after).length := by
  rw [leafText_append, leafText_cons, length_append, length_append, Nat.add_assoc]

/-- In a text, or at an end of a token, an offset lies in none. -/
theorem not_inside (hsplit : leaves root = before ++ leaf :: after) (hle : (leafText before).length ≤ offset)
    (hge : offset ≤ (leafText before).length + leaf.2.toText.length)
    (hends : leaf.2.isChip = true → offset = (leafText before).length ∨ offset = (leafText before).length + leaf.2.toText.length) :
    ¬∃ stop, Inside root offset stop := by
  rintro ⟨stop, before', node, img, after', hsplit', hlt, hgt, hstop⟩
  rw [hsplit] at hsplit'
  rcases splits hsplit' with ⟨rfl, rfl⟩ | ⟨more, rfl⟩ | ⟨more, rfl⟩
  · have hend : offset = (leafText before).length ∨ offset = (leafText before).length + (chipToken img).length := hends rfl
    omega
  · rw [length_leafText_split] at hlt
    omega
  · rw [length_leafText_split] at hle
    have htoken : Leaf.toText (.chip img) = chipToken img := rfl
    dsimp only at hle
    rw [htoken] at hle
    omega

/-- An offset inside a token lies in one token only. -/
theorem inside_stop {stop : ℕ} (hsplit : leaves root = before ++ (node, .chip img) :: after)
    (hlt : (leafText before).length < offset) (hgt : offset < (leafText before).length + (chipToken img).length)
    (h : Inside root offset stop) : (leafText before).length + (chipToken img).length = stop := by
  obtain ⟨before', node', img', after', hsplit', hlt', hgt', rfl⟩ := h
  rw [hsplit] at hsplit'
  have htoken : ∀ img, Leaf.toText (.chip img) = chipToken img := fun _ => rfl
  rcases splits hsplit' with ⟨rfl, heq⟩ | ⟨more, rfl⟩ | ⟨more, rfl⟩
  · obtain rfl := Leaf.chip.inj (Prod.mk.inj heq).2
    rfl
  · rw [length_leafText_split, htoken] at hlt'
    omega
  · rw [length_leafText_split, htoken] at hlt
    omega

theorem seats_outside (hsplit : leaves root = before ++ leaf :: after) (hle : (leafText before).length ≤ offset)
    (hge : offset ≤ (leafText before).length + leaf.2.toText.length)
    (hends : leaf.2.isChip = true → offset = (leafText before).length ∨ offset = (leafText before).length + leaf.2.toText.length)
    (hp : pointOffset root p = offset) : Seats root offset p := by
  refine ⟨?_, fun _ => hp⟩
  intro stop hstop
  exact absurd ⟨stop, hstop⟩ (not_inside hsplit hle hge hends)

theorem pointOffset_text (hflat : isFlat root = true) (hsplit : leaves root = before ++ (node, .text data) :: after) (d : ℕ) :
    pointOffset root ⟨node, d⟩ = (leafText before).length + visible data d := by
  rw [pointOffset, serializedPrefix, upTo_text hflat hsplit, nil_append, length_append]
  rfl

/-- A span has no chips. -/
theorem chip_notMem_inner (path : List ℕ) (idx : ℕ) (children : List Dom) : (node, Leaf.chip img) ∉ innerLeaves path idx children := by
  induction children generalizing idx with
  | nil => exact not_mem_nil
  | cons child children ih =>
    cases child with
    | text _ =>
      intro hin
      rcases mem_cons.mp hin with heq | hin
      · exact nomatch (Prod.mk.inj heq).2
      · exact ih _ hin
    | chip _ | br | cmd _ | block _ | other => exact ih _

/-- A chip is a node of the field. -/
theorem chip_path {idx : ℕ} {root : List Dom} (h : (node, Leaf.chip img) ∈ leavesAt idx root) : ∃ i, node = [i] := by
  induction root generalizing idx with
  | nil => exact nomatch h
  | cons child root ih =>
    cases child with
    | text _ =>
      rcases mem_cons.mp h with heq | h
      · exact nomatch (Prod.mk.inj heq).2
      · exact ih h
    | chip _ =>
      rcases mem_cons.mp h with heq | h
      · exact ⟨idx, (Prod.mk.inj heq).1⟩
      · exact ih h
    | cmd children =>
      rcases mem_append.mp h with h | h
      · exact absurd h (chip_notMem_inner _ _ _)
      · exact ih h
    | br | block _ | other => exact ih h

theorem pointOffset_boundary (hflat : isFlat root = true) (hsplit : leaves root = before ++ (node, .chip img) :: after) :
    pointOffset root (boundary node false) = (leafText before).length
      ∧ pointOffset root (boundary node true) = (leafText before).length + (chipToken img).length := by
  have hin : (node, Leaf.chip img) ∈ leavesAt 0 root := by
    rw [leaves] at hsplit
    rw [hsplit]
    exact mem_append_right _ mem_cons_self
  obtain ⟨i, rfl⟩ := chip_path hin
  obtain ⟨hbefore, hafter⟩ := upTo_chip hflat hsplit []
  have hfront : boundary [i] false = ⟨[], i⟩ := rfl
  have hback : boundary [i] true = ⟨[], i + 1⟩ := rfl
  constructor
  · rw [hfront, pointOffset, serializedPrefix, hbefore, nil_append]
  · rw [hback, pointOffset, serializedPrefix, hafter, nil_append, length_append]

/-- The scan over the leaves seats the offset, or has gone behind the last leaf. -/
theorem pointFrom_seats (hflat : isFlat root = true) (hsplit : leaves root = before ++ rest)
    (hle : (leafText before).length ≤ offset) (prevChip : Bool) :
    (∀ p, pointFrom offset rest (leafText before).length prevChip = some p → Seats root offset p)
      ∧ (pointFrom offset rest (leafText before).length prevChip = none → (leafText (leaves root)).length ≤ offset
        ∧ ∀ node data, rest.getLast? = some (node, .text data) → (leafText (leaves root)).length < offset) := by
  -- on the leaves that are left; the text of those before stays below the offset
  induction rest generalizing before prevChip with
  | nil =>
    rw [append_nil] at hsplit
    refine ⟨?_, ?_⟩
    · intro p hp
      rw [pointFrom] at hp
      exact nomatch hp
    · intro _
      rw [hsplit]
      exact ⟨hle, fun node data h => nomatch h⟩
  | cons leaf rest ih =>
    obtain ⟨node, data | img⟩ := leaf
    · have hnext : leaves root = (before ++ [(node, .text data)]) ++ rest := by
        rw [hsplit, append_assoc, singleton_append]
      have hlen : (leafText (before ++ [(node, .text data)])).length = (leafText before).length + (stripStray data).length := by
        rw [length_leafText_split]
        rfl
      rw [pointFrom]
      by_cases hhere : offset ≤ (leafText before).length + (stripStray data).length
      · rw [if_pos hhere]
        refine ⟨?_, fun h => nomatch h⟩
        intro p hp
        cases hp
        apply seats_outside hsplit hle hhere (fun h => nomatch h)
        rw [pointOffset_text hflat hsplit, visible_indexInText (by omega)]
        omega
      · rw [if_neg hhere, ← hlen]
        obtain ⟨hsome, hnone⟩ := ih hnext (by omega) false
        refine ⟨hsome, ?_⟩
        intro h
        obtain ⟨h1, h2⟩ := hnone h
        refine ⟨h1, ?_⟩
        intro node' data' hlast
        cases rest with
        | nil =>
          rw [hnext, append_nil]
          omega
        | cons leaf rest => exact h2 node' data' hlast
    · have hnext : leaves root = (before ++ [(node, .chip img)]) ++ rest := by
        rw [hsplit, append_assoc, singleton_append]
      have hlen : (leafText (before ++ [(node, .chip img)])).length = (leafText before).length + (chipToken img).length := by
        rw [length_leafText_split]
        rfl
      rw [pointFrom]
      -- a chip has no point inside: the offset is in front of it, in it or behind
      by_cases hfront : offset ≤ (leafText before).length
      · rw [if_pos hfront]
        refine ⟨?_, fun h => nomatch h⟩
        intro p hp
        cases hp
        apply seats_outside hsplit hle (Nat.le_trans hfront (Nat.le_add_right _ _)) (fun _ => .inl (by omega))
        rw [(pointOffset_boundary hflat hsplit).1]
        omega
      · rw [if_neg hfront]
        by_cases hin : offset < (leafText before).length + (chipToken img).length
        -- inside the token
        · rw [if_pos hin]
          refine ⟨?_, fun h => nomatch h⟩
          intro p hp
          cases hp
          have hafter : pointOffset root (afterChip node rest) = (leafText before).length + (chipToken img).length := by
            have hboundary := (pointOffset_boundary hflat hsplit).2
            cases rest with
            | nil => exact hboundary
            | cons next more =>
              obtain ⟨path, data | img'⟩ := next
              · rw [afterChip, pointOffset_text hflat hnext, visible_indexInText (Nat.zero_le _), hlen]
                rfl
              · exact hboundary
          refine ⟨?_, ?_⟩
          · intro stop hstop
            rw [hafter]
            exact inside_stop hsplit (by omega) hin hstop
          · intro hnot
            exact absurd ⟨_, before, node, img, rest, hsplit, by omega, hin, rfl⟩ hnot
        · rw [if_neg hin, ← hlen]
          obtain ⟨hsome, hnone⟩ := ih hnext (by omega) true
          refine ⟨hsome, ?_⟩
          intro h
          obtain ⟨h1, h2⟩ := hnone h
          refine ⟨h1, ?_⟩
          intro node' data' hlast
          cases rest with
          | nil => exact nomatch (Prod.mk.inj (some.inj hlast)).2
          | cons leaf rest => exact h2 node' data' hlast

/-- Behind the last node of the field. -/
theorem upTo_end {idx : ℕ} {root : List Dom} (hflat : isFlat root = true) (hle : idx + root.length ≤ offset) (out : Units) :
    upTo chipToken offset (some []) true root idx out = (out ++ leafText (leavesAt idx root), true) := by
  induction root generalizing idx out with
  | nil => rw [upTo, leavesAt, leafText, flatMap_nil, append_nil]; rfl
  | cons node root ih =>
    obtain ⟨hnode, hroot⟩ := isFlat_cons.mp hflat
    have hbelow : below (some []) idx = none := rfl
    rw [length_cons] at hle
    rw [upTo, if_neg (by omega), hbelow, upTo_node hnode offset _ idx]
    dsimp only
    rw [ih hroot (by omega), leavesAt_cons idx node root, leafText_append, append_assoc]

/-- The point of an offset stands for the offset. -/
theorem canonicalPoint_seats (hflat : isFlat root = true) (hle : offset ≤ (serializeEditor root).length) :
    Seats root offset (canonicalPoint root offset) := by
  have hvalue : serializeEditor root = leafText (leaves root) := by
    rw [serializeEditor_flat hflat, leaves, leafText_leavesAt]
  rw [hvalue] at hle
  obtain ⟨hsome, hnone⟩ := @pointFrom_seats root [] (leaves root) offset hflat rfl (Nat.zero_le _) false
  rw [canonicalPoint]
  cases hfrom : pointFrom offset (leaves root) 0 false with
  | some p => exact hsome p hfrom
  | none =>
    obtain ⟨htotal, htext⟩ := hnone hfrom
    -- no leaf holds the point, so it is the end of the text
    have hend : offset = (leafText (leaves root)).length := Nat.le_antisymm hle htotal
    rw [getD_none]
    cases hlast : (leaves root).getLast? with
    | none =>
      have hnil : leaves root = [] := getLast?_eq_none_iff.mp hlast
      refine ⟨?_, ?_⟩
      · rintro stop ⟨before, node, img, after, hsplit, -⟩
        rw [hnil] at hsplit
        exact absurd hsplit.symm (append_ne_nil_of_right_ne_nil _ (cons_ne_nil _ _))
      · intro _
        have hup := @upTo_end root.length 0 root hflat (by omega) []
        rw [nil_append, ← leaves] at hup
        dsimp only
        rw [pointOffset, serializedPrefix, hup, hend]
    | some leaf =>
      obtain ⟨before, hsplit⟩ := getLast?_eq_some_iff.mp hlast
      obtain ⟨node, data | img⟩ := leaf
      · have hlt := htext node data hlast
        omega
      · have hlen := length_leafText_split before [] (node, .chip img)
        rw [← hsplit] at hlen
        have hnothing : (leafText []).length = 0 := rfl
        rw [hnothing, Nat.add_zero] at hlen
        apply seats_outside hsplit (by omega) (by omega) (fun _ => .inr (by omega))
        dsimp only
        rw [(pointOffset_boundary hflat hsplit).2, hend, hlen]
        rfl

end

end Lpm.Composer.Canon
