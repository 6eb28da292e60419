/-
Where the anchors stand in a flat field once `fixAnchors` has run.

`anchored` says it of the items that the field shows. The code goes by the runs between two chips,
which may be spread over several texts, and dresses the first and the last of them; a run that is
dressed stays so, but for texts that were left empty.
-/
import Lpm.Composer.Canon

set_option autoImplicit false

namespace Lpm.Composer.Canon

open List

/-! ## Where the anchors stand -/

def Item.isChip : Item → Bool
  | .chip _ => true
  | .unit _ => false

/-- How many anchors stand between two neighbours, or at an end of the field: one before a chip,
one after a chip that ends its line or is followed by another, and one after a final break. -/
def anchors (before after : Option Item) : ℕ :=
  (if after.any Item.isChip then 1 else 0)
    + (if before.any Item.isChip ∧ (after = none ∨ after = some (.unit newline) ∨ after.any Item.isChip) then 1 else 0)
    + (if before = some (.unit newline) ∧ after = none then 1 else 0)

/-- The items with their anchors, behind one or the beginning of the field. -/
def anchored : Option Item → List Item → List Item
  | before, [] => List.replicate (anchors before none) (.unit ZWSP)
  | before, item :: rest => List.replicate (anchors before (some item)) (.unit ZWSP) ++ item :: anchored (some item) rest

def Item.stays : Item → Bool
  | .unit ch => !isStrayChar ch
  | .chip _ => true

/-- The items without stray characters. -/
def stripped (l : List Item) : List Item := l.filter Item.stays

section
variable {img : Units} {prev : Option Units} (ch : ℕ)

theorem units_cons (data : Units) : units (ch :: data) = .unit ch :: units data := rfl

theorem units_append (a b : Units) : units (a ++ b) = units a ++ units b := map_append

theorem stripped_units (data : Units) : stripped (units data) = units (stripStray data) := by
  rw [stripped, units, List.filter_map, units, stripStray]
  rfl

theorem stripped_append (a b : List Item) : stripped (a ++ b) = stripped a ++ stripped b := filter_append _ _

/-- Stray characters add nothing to the value. -/
theorem toText_stripped (l : List Item) : (stripped l).flatMap Item.toText = l.flatMap Item.toText := by
  induction l with
  | nil => rfl
  | cons item l ih =>
    rw [stripped] at ih
    rw [stripped, flatMap_cons]
    by_cases hstays : item.stays = true
    · rw [filter_cons_of_pos hstays, flatMap_cons, ih]
    · have hnone : item.toText = [] := by
        cases item with
        | unit ch =>
          rw [Item.stays, Bool.not_eq_true', Bool.not_eq_false] at hstays
          exact if_pos hstays
        | chip img => exact absurd rfl hstays
      rw [filter_cons_of_neg hstays, ih, hnone, nil_append]

/-- Neither do anchors. -/
theorem toText_anchored (before : Option Item) (l : List Item) : (anchored before l).flatMap Item.toText = l.flatMap Item.toText := by
  have hanchors : ∀ n, (List.replicate n (Item.unit ZWSP)).flatMap Item.toText = [] := by
    intro n
    apply flatMap_eq_nil_iff.mpr
    intro item hitem
    rw [eq_of_mem_replicate hitem]
    rfl
  induction l generalizing before with
  | nil => rw [anchored, hanchors, flatMap_nil]
  | cons item l ih => rw [anchored, flatMap_append, hanchors, nil_append, flatMap_cons, flatMap_cons, ih]

/-- What stands before and after a run, when it is put there. -/
def anchor (there : Bool) : Units := if there then [ZWSP] else []

/-- Behind a character no anchor stands before the next. -/
theorem anchored_unit_chip (run : Units) (img : Units) (more : List Item) :
    anchored (some (.unit ch)) (units run ++ .chip img :: more)
      = units (run ++ [ZWSP]) ++ .chip img :: anchored (some (.chip img)) more := by
  induction run generalizing ch with
  | nil =>
    have hone : anchors (some (.unit ch)) (some (.chip img)) = 1 := by simp [anchors, Item.isChip]
    rw [units, map_nil, nil_append, anchored, hone]
    rfl
  | cons next run ih =>
    have hnone : anchors (some (.unit ch)) (some (.unit next)) = 0 := by simp [anchors, Item.isChip]
    rw [units, map_cons, cons_append, anchored, hnone, ← units, ih next]
    rfl

theorem anchored_unit_end (run : Units) :
    anchored (some (.unit ch)) (units run) = units (run ++ anchor ((ch :: run).getLast? = some newline)) := by
  induction run generalizing ch with
  | nil =>
    rw [units, map_nil, anchored, nil_append, getLast?_singleton]
    by_cases hch : ch = newline
    · subst hch
      rfl
    · have hnone : anchors (some (.unit ch)) none = 0 := by simp [anchors, Item.isChip, hch]
      have hnot : decide (some ch = some newline) = false := by simp [hch]
      rw [hnone, hnot]
      rfl
  | cons next run ih =>
    have hnone : anchors (some (.unit ch)) (some (.unit next)) = 0 := by simp [anchors, Item.isChip]
    rw [units, map_cons, anchored, hnone, ← units, ih next, getLast?_cons_cons]
    rfl

variable (prev : Option Units) (real : Units)

/-- Whether an anchor stands behind the chip before a run. -/
def leads : Bool := prev.isSome && (real.isEmpty || real.head? = some newline)

theorem anchors_first (ch : ℕ) (run : Units) :
    List.replicate (anchors (prev.map .chip) (some (.unit ch))) (Item.unit ZWSP) = units (anchor (leads prev (ch :: run))) := by
  cases prev with
  | none => rfl
  | some img =>
    by_cases hch : ch = newline
    · subst hch
      rfl
    · have hnone : anchors (some (Item.chip img)) (some (.unit ch)) = 0 := by simp [anchors, Item.isChip, hch]
      have hnot : leads (some img) (ch :: run) = false := by simp [leads, hch]
      rw [Option.map_some, hnone, hnot]
      rfl

theorem anchored_run_chip (img : Units) (more : List Item) :
    anchored (prev.map .chip) (units real ++ .chip img :: more)
      = units (anchor (leads prev real) ++ real ++ [ZWSP]) ++ .chip img :: anchored (some (.chip img)) more := by
  cases real with
  | nil =>
    cases prev with
    | none => rfl
    | some img => rfl
  | cons ch run =>
    rw [units_cons, cons_append, anchored, anchors_first prev ch run, anchored_unit_chip]
    simp only [units_append, units_cons, append_assoc, cons_append]

theorem anchored_run_end :
    anchored (prev.map .chip) (units real)
      = units (anchor (leads prev real) ++ real ++ anchor (real.getLast? = some newline)) := by
  cases real with
  | nil =>
    cases prev with
    | none => rfl
    | some img => rfl
  | cons ch run =>
    rw [units_cons, anchored, anchors_first prev ch run, anchored_unit_end]
    simp only [units_append, units_cons, append_assoc, cons_append]

end

/-! ## A run -/

section
variable {nodes rest : List Dom} {node : Dom} {f : ℕ → Units → Units × Bool} {i n : ℕ} {lead trail : Bool} {ds : List Units}

/-- A text and the spans around it, and no chip. -/
def isBare (nodes : List Dom) : Bool :=
  nodes.all fun node =>
    match node with
    | .text _ => true
    | .cmd children => children.all Dom.isText
    | _ => false

theorem isBare_append {a b : List Dom} : isBare (a ++ b) = true ↔ isBare a = true ∧ isBare b = true := by
  rw [isBare, isBare, isBare, all_append, Bool.and_eq_true]

theorem isBare_cons : isBare (node :: rest) = true ↔ isBare [node] = true ∧ isBare rest = true := by
  simp [isBare]

theorem bare_cases (h : isBare [node] = true) :
    (∃ data, node = .text data) ∨ ∃ children, node = .cmd children ∧ children.all Dom.isText = true := by
  rw [isBare, all_cons, all_nil, Bool.and_true] at h
  cases node with
  | text data => exact .inl ⟨data, rfl⟩
  | cmd children => exact .inr ⟨children, rfl, h⟩
  | chip _ | br | block _ | other => exact nomatch h

/-- The texts of a span. -/
def innerTexts (children : List Dom) : List Units :=
  children.filterMap fun child =>
    match child with
    | .text data => some data
    | _ => none

/-- The texts of a node. -/
def Dom.texts : Dom → List Units
  | .text data => [data]
  | .cmd children => innerTexts children
  | _ => []

theorem innerTexts_eq (path : List ℕ) (idx : ℕ) (children : List Dom) :
    ((innerLeaves path idx children).filterMap fun leaf =>
      match leaf.2 with
      | .text data => some data
      | .chip _ => none) = innerTexts children := by
  induction children generalizing idx with
  | nil => rfl
  | cons child children ih =>
    cases child with
    | text data => exact congrArg (data :: ·) (ih (idx + 1))
    | chip _ | br | cmd _ | block _ | other => exact ih (idx + 1)

theorem length_innerLeaves (path : List ℕ) (idx : ℕ) (children : List Dom) :
    (innerLeaves path idx children).length = (innerTexts children).length := by
  induction children generalizing idx with
  | nil => rfl
  | cons child children ih =>
    cases child with
    | text data => exact congrArg (· + 1) (ih (idx + 1))
    | chip _ | br | cmd _ | block _ | other => exact ih (idx + 1)

theorem texts_eq (nodes : List Dom) : texts nodes = nodes.flatMap Dom.texts := by
  have hat : ∀ idx, ((leavesAt idx nodes).filterMap fun leaf =>
      match leaf.2 with
      | .text data => some data
      | .chip _ => none) = nodes.flatMap Dom.texts := by
    induction nodes with
    | nil => exact fun _ => rfl
    | cons node nodes ih =>
      intro idx
      cases node with
      | text data => exact congrArg (data :: ·) (ih (idx + 1))
      | cmd children =>
        rw [leavesAt, filterMap_append, innerTexts_eq, ih, flatMap_cons]
        rfl
      | chip _ | br | block _ | other => exact ih (idx + 1)
  exact hat 0

theorem items_bare (h : isBare nodes = true) : items nodes = units (texts nodes).flatten := by
  have hinner : ∀ children : List Dom, (Dom.cmd children).items = units (innerTexts children).flatten := by
    intro children
    induction children with
    | nil => rfl
    | cons child children ih =>
      rw [Dom.items] at ih
      rw [Dom.items, flatMap_cons, ih]
      cases child with
      | text data => exact (units_append data _).symm
      | chip _ | br | cmd _ | block _ | other => rfl
  rw [texts_eq]
  induction nodes with
  | nil => rfl
  | cons node nodes ih =>
    obtain ⟨hnode, hnodes⟩ := isBare_cons.mp h
    rw [items, flatMap_cons, ← items, ih hnodes, flatMap_cons, flatten_append, units_append]
    congr 1
    rcases bare_cases hnode with ⟨data, rfl⟩ | ⟨children, rfl, -⟩
    · rw [Dom.texts, flatten_singleton]
      rfl
    · exact hinner children

/-! ### Texts set one by one -/

variable (a b : Units)

theorem commonLength_le_left : commonLength a b ≤ a.length := by
  induction a generalizing b with
  | nil => exact Nat.zero_le _
  | cons x a ih =>
    cases b with
    | nil => exact Nat.zero_le _
    | cons y b =>
      rw [commonLength]
      split_ifs
      · exact Nat.succ_le_succ (ih b)
      · exact Nat.zero_le _

theorem take_commonLength : a.take (commonLength a b) = b.take (commonLength a b) := by
  induction a generalizing b with
  | nil => rfl
  | cons x a ih =>
    cases b with
    | nil => rfl
    | cons y b =>
      rw [commonLength]
      split_ifs with hxy
      · rw [take_succ_cons, take_succ_cons, ih, hxy]
      · rfl

theorem commonLength_comm : commonLength a b = commonLength b a := by
  induction a generalizing b with
  | nil => cases b <;> rfl
  | cons x a ih =>
    cases b with
    | nil => rfl
    | cons y b =>
      rw [commonLength, commonLength]
      by_cases hxy : x = y
      · rw [if_pos hxy, if_pos hxy.symm, ih]
      · rw [if_neg hxy, if_neg (Ne.symm hxy)]

/-- A text that is rewritten is what it should be. -/
theorem setTextMinimal_eq (cur want : Units) : setTextMinimal cur want = (want, decide (cur ≠ want)) := by
  rw [setTextMinimal]
  by_cases hsame : cur = want
  · rw [if_pos hsame, hsame]
    simp
  · rw [if_neg hsame]
    have htrue : decide (cur ≠ want) = true := by simpa using hsame
    rw [htrue]
    dsimp only
    generalize hp : commonLength cur want = p
    generalize hs : commonLength (cur.drop p).reverse (want.drop p).reverse = s
    have hpcur : p ≤ cur.length := hp ▸ commonLength_le_left cur want
    have hpwant : p ≤ want.length := by
      rw [← hp, commonLength_comm]
      exact commonLength_le_left want cur
    have hscur : s ≤ cur.length - p := by
      have hle := commonLength_le_left (cur.drop p).reverse (want.drop p).reverse
      rw [hs, length_reverse, length_drop] at hle
      exact hle
    have hswant : s ≤ want.length - p := by
      have hle := commonLength_le_left (want.drop p).reverse (cur.drop p).reverse
      rw [commonLength_comm, hs, length_reverse, length_drop] at hle
      exact hle
    have hfront : cur.take p = want.take p := by
      rw [← hp]
      exact take_commonLength cur want
    -- what is kept behind is the same in both
    have hback : cur.drop (p + (cur.length - p - s)) = want.drop (want.length - s) := by
      have htake := take_commonLength (cur.drop p).reverse (want.drop p).reverse
      rw [hs, take_reverse, take_reverse, length_drop, length_drop, reverse_inj, drop_drop,
        drop_drop] at htake
      have hidx : p + (want.length - p - s) = want.length - s := by omega
      rw [← hidx]
      exact htake
    have hlen : (cur.take p).length = p := by rw [length_take, Nat.min_eq_left hpcur]
    have htake : (cur.take p ++ cur.drop (p + (cur.length - p - s))).take p = want.take p := by
      rw [take_left' hlen, hfront]
    have hdrop : (cur.take p ++ cur.drop (p + (cur.length - p - s))).drop p = want.drop (want.length - s) := by
      rw [drop_left' hlen, hback]
    rw [htake, hdrop]
    have hmid : want.take p ++ (want.take (want.length - s)).drop p = want.take (want.length - s) := by
      have hshort : want.take p = (want.take (want.length - s)).take p := by
        rw [take_take, Nat.min_eq_left (by omega)]
      rw [hshort, take_append_drop]
    rw [hmid, take_append_drop]

/-- The texts set one by one, the first the one at `i`. -/
def setFrom (f : ℕ → Units → Units × Bool) : ℕ → List Units → List (Units × Bool)
  | _, [] => []
  | i, data :: more => f i data :: setFrom f (i + 1) more

theorem setFrom_append (f : ℕ → Units → Units × Bool) (i : ℕ) (a b : List Units) :
    setFrom f i (a ++ b) = setFrom f i a ++ setFrom f (i + a.length) b := by
  induction a generalizing i with
  | nil => rfl
  | cons data a ih =>
    rw [cons_append, setFrom, setFrom, ih, length_cons, cons_append, Nat.add_right_comm, Nat.add_assoc]

/-- What setting the texts does to a node: its texts are those that were set, and all else stays. -/
structure Dressed (nodes nodes' : List Dom) (set : List (Units × Bool)) : Prop where
  bare : isBare nodes' = true
  texts : texts nodes' = set.map Prod.fst
  shape : nodes'.map Dom.isText = nodes.map Dom.isText
  inner : ∀ children', Dom.cmd children' ∈ nodes' → ∃ children, Dom.cmd children ∈ nodes ∧ children'.length = children.length

theorem setInner_texts {children : List Dom} (h : children.all Dom.isText = true) (f : ℕ → Units → Units × Bool) (i : ℕ) :
    (setInner f i children).1.all Dom.isText = true
      ∧ innerTexts (setInner f i children).1 = (setFrom f i (innerTexts children)).map Prod.fst
      ∧ (setInner f i children).1.length = children.length
      ∧ (setInner f i children).2 = (setFrom f i (innerTexts children)).any Prod.snd := by
  induction children generalizing i with
  | nil => exact ⟨rfl, rfl, rfl, rfl⟩
  | cons child children ih =>
    obtain ⟨⟨data, rfl⟩, hchildren⟩ := text_of_all h
    obtain ⟨hall, htexts, hlen, hchanged⟩ := ih hchildren (i + 1)
    refine ⟨hall, ?_, ?_, ?_⟩
    · exact congrArg ((f i data).1 :: ·) htexts
    · exact congrArg (· + 1) hlen
    · exact congrArg ((f i data).2 || ·) hchanged

theorem setTexts_dressed (h : isBare nodes = true) (f : ℕ → Units → Units × Bool) (i : ℕ) :
    Dressed nodes (setTexts f i nodes).1 (setFrom f i (texts nodes))
      ∧ (setTexts f i nodes).2 = (setFrom f i (texts nodes)).any Prod.snd := by
  induction nodes generalizing i with
  | nil => exact ⟨⟨rfl, rfl, rfl, fun _ h => nomatch h⟩, rfl⟩
  | cons node nodes ih =>
    obtain ⟨hnode, hnodes⟩ := isBare_cons.mp h
    have htexts : ∀ (node : Dom) (nodes : List Dom), texts (node :: nodes) = node.texts ++ texts nodes := by
      intro node nodes
      rw [texts_eq, texts_eq, flatMap_cons]
    -- a text node is one of the texts, a command has as many as it holds
    rcases bare_cases hnode with ⟨data, rfl⟩ | ⟨children, rfl, hchildren⟩
    · obtain ⟨hdressed, hchanged⟩ := ih hnodes (i + 1)
      rw [setTexts]
      dsimp only
      refine ⟨⟨?_, ?_, ?_, ?_⟩, ?_⟩
      · exact isBare_cons.mpr ⟨rfl, hdressed.bare⟩
      · rw [htexts, htexts, hdressed.texts]
        rfl
      · exact congrArg (true :: ·) hdressed.shape
      · intro children' hin
        rcases mem_cons.mp hin with heq | hin
        · exact nomatch heq
        · obtain ⟨children, hin, hlen⟩ := hdressed.inner children' hin
          exact ⟨children, mem_cons_of_mem _ hin, hlen⟩
      · rw [htexts, hchanged]
        rfl
    · obtain ⟨hdressed, hchanged⟩ := ih hnodes (i + (innerTexts children).length)
      obtain ⟨hall, hinner, hlen, hset⟩ := setInner_texts hchildren f i
      rw [setTexts, length_innerLeaves]
      dsimp only
      have hsplit : setFrom f i (texts (.cmd children :: nodes))
          = setFrom f i (innerTexts children) ++ setFrom f (i + (innerTexts children).length) (texts nodes) := by
        rw [htexts, Dom.texts, setFrom_append]
      refine ⟨⟨?_, ?_, ?_, ?_⟩, ?_⟩
      · refine isBare_cons.mpr ⟨?_, hdressed.bare⟩
        rw [isBare, all_cons, all_nil, Bool.and_true]
        exact hall
      · rw [htexts, hsplit, map_append, ← hdressed.texts, ← hinner]
        rfl
      · exact congrArg (false :: ·) hdressed.shape
      · intro children' hin
        rcases mem_cons.mp hin with heq | hin
        · obtain rfl := Dom.cmd.inj heq
          exact ⟨children, mem_cons_self, hlen⟩
        · obtain ⟨children, hin, hlen⟩ := hdressed.inner children' hin
          exact ⟨children, mem_cons_of_mem _ hin, hlen⟩
      · rw [hsplit, any_append, ← hset, ← hchanged]

/-- Texts that are set to what they are stay. -/
theorem setTexts_same (h : isBare nodes = true) (hset : setFrom f i (texts nodes) = (texts nodes).map fun data => (data, false)) :
    setTexts f i nodes = (nodes, false) := by
  -- inside an element all children are texts, so one list induction serves
  have hinner : ∀ children : List Dom, children.all Dom.isText = true → ∀ i,
      setFrom f i (innerTexts children) = (innerTexts children).map (fun data => (data, false)) →
        setInner f i children = (children, false) := by
    intro children hall
    induction children with
    | nil => exact fun _ _ => rfl
    | cons child children ih =>
      intro i hset
      obtain ⟨⟨data, rfl⟩, hchildren⟩ := text_of_all hall
      obtain ⟨hhere, hmore⟩ := List.cons.inj hset
      rw [setInner, hhere, ih hchildren (i + 1) hmore]
      rfl
  induction nodes generalizing i with
  | nil => rfl
  | cons node nodes ih =>
    obtain ⟨hnode, hnodes⟩ := isBare_cons.mp h
    have htexts : texts (node :: nodes) = node.texts ++ texts nodes := by rw [texts_eq, texts_eq, flatMap_cons]
    rw [htexts] at hset
    rcases bare_cases hnode with ⟨data, rfl⟩ | ⟨children, rfl, hchildren⟩
    · obtain ⟨hhere, hmore⟩ := List.cons.inj hset
      rw [setTexts, hhere, ih hnodes hmore]
      rfl
    · rw [setFrom_append, map_append] at hset
      have hlen : (setFrom f i (innerTexts children)).length = (innerTexts children).length := by
        have hany : ∀ (i : ℕ) (l : List Units), (setFrom f i l).length = l.length := by
          intro i l
          induction l generalizing i with
          | nil => rfl
          | cons data l ih => exact congrArg (· + 1) (ih (i + 1))
        exact hany i _
      obtain ⟨hhere, hmore⟩ := append_inj hset (by rw [length_map]; exact hlen)
      have hrest := ih hnodes hmore
      rw [Dom.texts] at hrest
      rw [setTexts, hinner children hchildren i hhere, length_innerLeaves]
      dsimp only
      rw [hrest]
      rfl

/-- Texts that come out as they were did not change. -/
theorem setFrom_same (want : ℕ → Units → Units)
    (h : (setFrom (fun i data => setTextMinimal data (want i data)) i ds).map Prod.fst = ds) :
    setFrom (fun i data => setTextMinimal data (want i data)) i ds = ds.map fun data => (data, false) := by
  induction ds generalizing i with
  | nil => rfl
  | cons data ds ih =>
    obtain ⟨hhere, hmore⟩ := List.cons.inj h
    dsimp only at hhere
    rw [setTextMinimal_eq] at hhere
    dsimp only at hhere
    rw [setFrom, ih hmore, setTextMinimal_eq, hhere]
    simp

/-! ### A run dressed -/

/-- The texts of a run with its anchors. -/
def dress (lead trail : Bool) : List Units → List Units
  | [] => []
  | [data] => [anchor lead ++ data ++ anchor trail]
  | data :: more => (anchor lead ++ data) :: dress false trail more

theorem dress_cons {more : List Units} (h : more ≠ []) (lead trail : Bool) (data : Units) :
    dress lead trail (data :: more) = (anchor lead ++ data) :: dress false trail more := by
  cases more with
  | nil => exact absurd rfl h
  | cons next more => rfl

theorem dress_eq_nil : dress lead trail ds = [] ↔ ds = [] := by
  cases ds with
  | nil => exact ⟨fun _ => rfl, fun _ => rfl⟩
  | cons data more =>
    cases more with
    | nil | cons next more => exact ⟨fun h => (nomatch h), fun h => (nomatch h)⟩

/-- What the texts should be is the run dressed. -/
theorem setFrom_desired (h : i + ds.length = n) (lead trail : Bool) :
    (setFrom (fun i data => setTextMinimal data (desired lead trail n i data)) i ds).map Prod.fst
      = dress (i = 0 && lead) trail (ds.map stripStray) := by
  induction ds generalizing i with
  | nil => rfl
  | cons data more ih =>
    rw [length_cons] at h
    rw [setFrom, map_cons, setTextMinimal_eq, ih (by omega)]
    have hlater : (decide (i + 1 = 0) && lead) = false := by simp
    have hfront : (if i = 0 ∧ lead = true then ZWSP :: stripStray data else stripStray data)
        = anchor (i = 0 && lead) ++ stripStray data := by
      by_cases hi : i = 0 ∧ lead = true
      · rw [if_pos hi, hi.1, hi.2]
        rfl
      · have hnot : (decide (i = 0) && lead) = false := by
          rw [Bool.and_eq_false_iff, decide_eq_false_iff_not, ← Bool.not_eq_true lead]
          exact not_and_or.mp hi
        rw [if_neg hi, hnot]
        rfl
    rw [hlater]
    dsimp only
    rw [desired, hfront, map_cons]
    cases more with
    | nil =>
      have hlast : i + 1 = n := by simpa using h
      cases trail with
      | true =>
        rw [if_pos ⟨hlast, rfl⟩]
        rfl
      | false =>
        rw [if_neg (fun h => nomatch h.2)]
        exact congrArg (· :: []) (append_nil _).symm
    | cons next more =>
      rw [length_cons] at h
      rw [if_neg (fun h' => by omega)]
      rfl

theorem flatten_dress (hnil : ds = [] → lead = false ∧ trail = false) :
    (dress lead trail ds).flatten = anchor lead ++ ds.flatten ++ anchor trail := by
  induction ds generalizing lead with
  | nil =>
    obtain ⟨rfl, rfl⟩ := hnil rfl
    rfl
  | cons data more ih =>
    cases more with
    | nil => rw [dress, flatten_singleton, flatten_singleton]
    | cons next more =>
      have hmore := @ih false (fun h => nomatch h)
      rw [dress_cons (cons_ne_nil _ _), flatten_cons, hmore, @flatten_cons _ data]
      simp only [append_assoc]
      rfl

/-- Anchors are stripped, and what holds no stray character stays. -/
theorem strip_dress (h : ∀ data ∈ ds, stripStray data = data) : (dress lead trail ds).map stripStray = ds := by
  have hanchor : ∀ there, stripStray (anchor there) = [] := by
    intro there
    cases there with
    | true => decide
    | false => rfl
  induction ds generalizing lead with
  | nil => rfl
  | cons data more ih =>
    have hdata := h data mem_cons_self
    have hmore := @ih false fun d hd => h d (mem_cons_of_mem data hd)
    cases more with
    | nil =>
      rw [dress, map_singleton, stripStray_append, stripStray_append, hanchor, hanchor, hdata, nil_append, append_nil]
    | cons next more =>
      rw [dress_cons (cons_ne_nil _ _), map_cons, hmore, stripStray_append, hanchor, hdata, nil_append]

/-- A dressed run without the texts that are empty is dressed. -/
theorem filter_dress (hnil : ds = [] → lead = false ∧ trail = false) :
    ∃ kept : List Units, (dress lead trail ds).filter (fun data => !data.isEmpty) = dress lead trail kept ∧ kept.flatten = ds.flatten
      ∧ (∀ data ∈ kept, data ∈ ds) ∧ (kept = [] → lead = false ∧ trail = false) := by
  induction ds generalizing lead with
  | nil => exact ⟨[], rfl, rfl, fun _ h => h, hnil⟩
  | cons data more ih =>
    cases more with
    | nil =>
      rw [dress]
      -- the last text is dropped only where it has no anchor either
      by_cases hempty : anchor lead ++ data ++ anchor trail = []
      · rw [hempty]
        rw [append_eq_nil_iff, append_eq_nil_iff] at hempty
        obtain ⟨⟨hlead, rfl⟩, htrail⟩ := hempty
        refine ⟨[], rfl, rfl, fun _ h => absurd h not_mem_nil, fun _ => ⟨?_, ?_⟩⟩
        · cases lead with
          | true => exact nomatch hlead
          | false => rfl
        · cases trail with
          | true => exact nomatch htrail
          | false => rfl
      · refine ⟨[data], ?_, rfl, fun _ h => h, fun h => nomatch h⟩
        rw [filter_cons_of_pos (by simpa using hempty)]
        rfl
    | cons next more =>
      obtain ⟨kept, hkept, hflat, hsub, hnone⟩ := @ih false (fun h => nomatch h)
      rw [dress_cons (cons_ne_nil _ _)]
      -- so is one that leads, and then nothing leads
      by_cases hempty : anchor lead ++ data = []
      · rw [hempty, filter_cons_of_neg (by simp), hkept]
        rw [append_eq_nil_iff] at hempty
        obtain ⟨hlead, rfl⟩ := hempty
        have hlead : lead = false := by
          cases lead with
          | true => exact nomatch hlead
          | false => rfl
        subst hlead
        exact ⟨kept, rfl, hflat, fun d hd => mem_cons_of_mem _ (hsub d hd), hnone⟩
      · refine ⟨data :: kept, ?_, ?_, ?_, fun h => nomatch h⟩
        · rw [filter_cons_of_pos (by simpa using hempty), hkept]
          cases kept with
          | nil =>
            obtain ⟨-, rfl⟩ := hnone rfl
            rw [dress, dress]
            exact congrArg (· :: []) (append_nil _).symm
          | cons first kept => rfl
        · rw [flatten_cons, flatten_cons, hflat]
        · intro d hd
          rcases mem_cons.mp hd with rfl | hd
          · exact mem_cons_self
          · exact mem_cons_of_mem _ (hsub d hd)

end

/-! ## Texts apart -/

/-- A node as `normalize` leaves one: a span holds one text at most. -/
def Dom.Single : Dom → Prop
  | .text _ => True
  | .chip _ => True
  | .cmd children => children.length ≤ 1 ∧ children.all Dom.isText = true
  | _ => False

/-- No text of the field stands beside another. -/
def Apart : List Dom → Prop
  | [] => True
  | node :: rest => node.Single ∧ (node.isText = true → rest.head?.any Dom.isText = false) ∧ Apart rest

def Dom.isEmptyText : Dom → Bool
  | .text data => data.isEmpty
  | _ => false

def Dom.dropInner : Dom → Dom
  | .cmd children => .cmd (children.filter fun child => !child.isEmptyText)
  | node => node

/-- The field without the texts that are empty. -/
def dropEmpty (root : List Dom) : List Dom := (root.filter fun node => !node.isEmptyText).map Dom.dropInner

section
variable {root nodes rest a b : List Dom} {node : Dom} {img data : Units} {prev next : Option Units}

theorem apart_append_chip : Apart (a ++ .chip img :: b) ↔ Apart a ∧ Apart b := by
  induction a with
  | nil =>
    constructor
    · exact fun h => ⟨trivial, h.2.2⟩
    · exact fun h => ⟨trivial, fun hnot => (nomatch hnot), h.2⟩
  | cons node a ih =>
    have hhead : (a ++ .chip img :: b).head?.any Dom.isText = a.head?.any Dom.isText := by
      cases a with
      | nil => rfl
      | cons next a => rfl
    rw [cons_append, Apart, Apart, hhead, ih, and_assoc, and_assoc]

theorem flat_of_apart (h : Apart root) : isFlat root = true := by
  induction root with
  | nil => rfl
  | cons node root ih =>
    obtain ⟨hsingle, -, hroot⟩ := h
    refine isFlat_cons.mpr ⟨?_, ih hroot⟩
    cases node with
    | text _ | chip _ => rfl
    | cmd children =>
      rw [isFlat, all_cons, all_nil, Bool.and_true]
      exact hsingle.2
    | br | block _ | other => exact hsingle.elim

theorem single_of_apart (h : Apart root) (hin : node ∈ root) : node.Single := by
  induction root with
  | nil => exact nomatch hin
  | cons first root ih =>
    rcases mem_cons.mp hin with rfl | hin
    · exact h.1
    · exact ih h.2.2 hin

/-- What stands beside what is all that counts. -/
theorem apart_of_shape (hshape : a.map Dom.isText = b.map Dom.isText) (hsingle : ∀ node ∈ a, node.Single) (h : Apart b) : Apart a := by
  induction a generalizing b with
  | nil => trivial
  | cons node a ih =>
    cases b with
    | nil => exact nomatch hshape
    | cons node' b =>
      obtain ⟨hnode, hrest⟩ := List.cons.inj hshape
      obtain ⟨-, hnext, hb⟩ := h
      refine ⟨hsingle node mem_cons_self, ?_, ih hrest (fun n hn => hsingle n (mem_cons_of_mem node hn)) hb⟩
      intro htext
      have hhead : a.head?.any Dom.isText = b.head?.any Dom.isText := by
        cases a with
        | nil =>
          cases b with
          | nil => rfl
          | cons _ _ => exact nomatch hrest
        | cons x a =>
          cases b with
          | nil => exact nomatch hrest
          | cons y b => exact (List.cons.inj hrest).1
      rw [hhead]
      exact hnext (hnode ▸ htext)

/-! ### What `normalize` does -/

theorem joinText_nil (rest : List Dom) : joinText [] rest = rest := by
  unfold joinText
  rw [if_pos rfl]

theorem joinText_text (h : data ≠ []) (more : Units) (rest : List Dom) :
    joinText data (.text more :: rest) = .text (data ++ more) :: rest := by rw [joinText, if_neg h]

theorem joinText_other (h : data ≠ []) (hrest : rest.head?.any Dom.isText = false) : joinText data rest = .text data :: rest := by
  unfold joinText
  rw [if_neg h]
  cases rest with
  | nil => rfl
  | cons node rest =>
    cases node with
    | text _ => exact nomatch hrest
    | chip _ | br | cmd _ | block _ | other => rfl

theorem joinText_items (data : Units) (rest : List Dom) : items (joinText data rest) = units data ++ items rest := by
  by_cases hempty : data = []
  · rw [hempty, joinText_nil]
    rfl
  · cases hrest : rest.head?.any Dom.isText with
    | false =>
      rw [joinText_other hempty hrest]
      rfl
    | true =>
      cases rest with
      | nil => cases hrest
      | cons node rest =>
        cases node with
        | text more =>
          rw [joinText_text hempty, items, flatMap_cons, items, flatMap_cons, Dom.items, Dom.items, units_append,
            append_assoc]
        | chip _ | br | cmd _ | block _ | other => cases hrest

theorem joinText_apart (h : Apart rest) (data : Units) : Apart (joinText data rest) := by
  by_cases hempty : data = []
  · rw [hempty, joinText_nil]
    exact h
  · cases hrest : rest.head?.any Dom.isText with
    | false =>
      rw [joinText_other hempty hrest]
      exact ⟨trivial, fun _ => hrest, h⟩
    | true =>
      cases rest with
      | nil => exact nomatch hrest
      | cons node rest =>
        cases node with
        | text more =>
          rw [joinText_text hempty]
          exact ⟨trivial, fun _ => h.2.1 rfl, h.2.2⟩
        | chip _ | br | cmd _ | block _ | other => exact nomatch hrest

theorem normalize_text (data : Units) (rest : List Dom) : normalize (.text data :: rest) = joinText data (normalize rest) := rfl

theorem normalize_chip (img : Units) (rest : List Dom) : normalize (.chip img :: rest) = .chip img :: normalize rest := rfl

theorem normalize_cmd (children rest : List Dom) : normalize (.cmd children :: rest) = .cmd (normalize children) :: normalize rest := rfl

/-- The texts of a span become one, or none. -/
theorem normalize_inner {children : List Dom} (h : children.all Dom.isText = true) :
    (normalize children).length ≤ 1 ∧ (normalize children).all Dom.isText = true
      ∧ (Dom.cmd (normalize children)).items = (Dom.cmd children).items := by
  induction children with
  | nil => exact ⟨Nat.zero_le _, rfl, rfl⟩
  | cons child children ih =>
    obtain ⟨⟨data, rfl⟩, hchildren⟩ := text_of_all h
    obtain ⟨hlen, hall, hitems⟩ := ih hchildren
    have hcons : (Dom.cmd (.text data :: children)).items = units data ++ (Dom.cmd children).items := rfl
    rw [hcons, ← hitems, normalize_text]
    generalize normalize children = rest at hlen hall
    by_cases hempty : data = []
    · rw [hempty, joinText_nil]
      exact ⟨hlen, hall, rfl⟩
    · cases rest with
      | nil =>
        rw [joinText_other hempty rfl]
        exact ⟨Nat.le_refl _, rfl, rfl⟩
      | cons node rest =>
        obtain ⟨⟨more, rfl⟩, hrest⟩ := text_of_all hall
        obtain rfl : rest = [] := by
          rw [length_cons] at hlen
          exact length_eq_zero_iff.mp (by omega)
        rw [joinText_text hempty]
        refine ⟨Nat.le_refl _, rfl, ?_⟩
        rw [Dom.items, Dom.items, flatMap_singleton, flatMap_singleton]
        exact units_append data more

theorem items_cons (node : Dom) (root : List Dom) : items (node :: root) = node.items ++ items root := flatMap_cons

theorem normalize_flat (h : isFlat root = true) : Apart (normalize root) ∧ items (normalize root) = items root := by
  induction root with
  | nil => exact ⟨trivial, rfl⟩
  | cons node root ih =>
    obtain ⟨hnode, hroot⟩ := isFlat_cons.mp h
    obtain ⟨hapart, hitems⟩ := ih hroot
    rcases flat_cases hnode with ⟨data, rfl⟩ | ⟨img, rfl⟩ | ⟨children, rfl, hchildren⟩
    · rw [normalize_text]
      refine ⟨joinText_apart hapart data, ?_⟩
      rw [joinText_items, hitems, items_cons]
      rfl
    · rw [normalize_chip]
      refine ⟨⟨trivial, fun hnot => (nomatch hnot), hapart⟩, ?_⟩
      rw [items_cons, items_cons, hitems]
    · obtain ⟨hlen, hall, hinner⟩ := normalize_inner hchildren
      rw [normalize_cmd]
      refine ⟨⟨⟨hlen, hall⟩, fun hnot => (nomatch hnot), hapart⟩, ?_⟩
      rw [items_cons, items_cons, hitems, hinner]

theorem dropEmpty_text (h : data ≠ []) (root : List Dom) : dropEmpty (.text data :: root) = .text data :: dropEmpty root := by
  have hkeep : (!(Dom.text data).isEmptyText) = true := by simpa [Dom.isEmptyText] using h
  rw [dropEmpty, filter_cons_of_pos (p := fun node : Dom => !node.isEmptyText) hkeep, map_cons]
  rfl

/-- Where no text stands beside another, only empty ones go. -/
theorem normalize_apart (h : Apart root) : normalize root = dropEmpty root := by
  induction root with
  | nil => rfl
  | cons node root ih =>
    obtain ⟨hsingle, hnext, hroot⟩ := h
    have hrest := ih hroot
    cases node with
    | text data =>
      rw [normalize_text, hrest]
      by_cases hempty : data = []
      · rw [hempty, joinText_nil]
        rfl
      · rw [dropEmpty_text hempty]
        apply joinText_other hempty
        -- what stands next is no text, and stays
        cases root with
        | nil => rfl
        | cons next root =>
          cases next with
          | text more => exact nomatch hnext rfl
          | chip _ | br | cmd _ | block _ | other => rfl
    | chip img => exact congrArg (Dom.chip img :: ·) hrest
    | cmd children =>
      have hinner : normalize children = children.filter fun child => !child.isEmptyText := by
        obtain ⟨hlen, hall⟩ := hsingle
        cases children with
        | nil => rfl
        | cons child children =>
          obtain ⟨⟨data, rfl⟩, -⟩ := text_of_all hall
          obtain rfl : children = [] := by
            rw [length_cons] at hlen
            exact length_eq_zero_iff.mp (by omega)
          rw [normalize_text]
          by_cases hempty : data = []
          · rw [hempty, joinText_nil]
            rfl
          · have hkeep : (!(Dom.text data).isEmptyText) = true := by simpa [Dom.isEmptyText] using hempty
            rw [filter_cons_of_pos (p := fun node : Dom => !node.isEmptyText) hkeep]
            exact joinText_other hempty rfl
      rw [normalize_cmd, hinner, hrest]
      rfl
    | br | block _ | other => exact hsingle.elim

/-! ## A run settled -/

/-- Whether an anchor stands behind a run. -/
def trails (next : Option Units) (real : Units) : Bool := next.isSome || real.getLast? = some newline

/-- The visible characters of a run. -/
def real (nodes : List Dom) : Units := ((texts nodes).map stripStray).flatten

/-- The nodes of a run are dressed: they show the visible characters with the anchors around
them, and nothing else. -/
structure Settled (prev next : Option Units) (chars : Units) (nodes : List Dom) (ds : List Units) : Prop where
  bare : isBare nodes = true
  apart : Apart nodes
  texts : texts nodes = dress (leads prev chars) (trails next chars) ds
  flatten : ds.flatten = chars
  visible : ∀ data ∈ ds, stripStray data = data
  none : ds = [] → leads prev chars = false ∧ trails next chars = false

theorem stripStray_stripStray (data : Units) : stripStray (stripStray data) = stripStray data := by
  rw [stripStray, stripStray, List.filter_filter]
  congr 1
  funext ch
  exact Bool.and_self _

theorem texts_append (a b : List Dom) : texts (a ++ b) = texts a ++ texts b := by
  rw [texts_eq, texts_eq, texts_eq, flatMap_append]

/-- A run without texts is made of empty spans. -/
theorem apart_anchor (hbare : isBare nodes = true) (hnone : texts nodes = []) (h : Apart nodes) (data : Units) :
    Apart (nodes ++ [.text data]) := by
  rw [texts_eq] at hnone
  induction nodes with
  | nil => exact ⟨trivial, fun _ => rfl, trivial⟩
  | cons node nodes ih =>
    obtain ⟨hnode, hnodes⟩ := isBare_cons.mp hbare
    obtain ⟨hsingle, -, hrest⟩ := h
    rw [flatMap_cons, append_eq_nil_iff] at hnone
    refine ⟨hsingle, ?_, ih hnodes hnone.2 hrest⟩
    intro htext
    rcases bare_cases hnode with ⟨data, rfl⟩ | ⟨children, rfl, -⟩
    · exact nomatch hnone.1
    · exact nomatch htext

/-- The code settles a run. -/
theorem settle_settled (prev next : Option Units) (hbare : isBare nodes = true) (h : Apart nodes) :
    ∃ ds, Settled prev next (real nodes) (settle prev next nodes).1 ds := by
  unfold settle
  dsimp only
  rw [← real, ← leads, ← trails]
  by_cases hempty : (texts nodes).isEmpty = true
  -- no text at all: one is put in where a chip needs a place for the caret
  · have hnone := List.isEmpty_iff.mp hempty
    have hreal : real nodes = [] := by rw [real, hnone]; rfl
    rw [if_pos hempty, hreal]
    have htrails : trails next [] = next.isSome := by rw [trails]; exact Bool.or_false _
    by_cases hany : (leads prev [] || trails next []) = true
    · rw [if_pos hany]
      refine ⟨[[]], isBare_append.mpr ⟨hbare, rfl⟩, apart_anchor hbare hnone h _, ?_, rfl, ?_, fun h => nomatch h⟩
      · rw [texts_append, hnone, ← htrails]
        cases hlead : leads prev [] with
        | false =>
          rw [hlead, Bool.false_or] at hany
          rw [hany]
          rfl
        | true =>
          cases trails next [] with
          | false => rfl
          | true => rfl
      · intro data hdata
        rw [mem_singleton.mp hdata]
        rfl
    · rw [if_neg hany]
      rw [Bool.not_eq_true, Bool.or_eq_false_iff] at hany
      refine ⟨[], hbare, h, ?_, rfl, fun _ h => absurd h not_mem_nil, fun _ => hany⟩
      rw [hnone]
      rfl
  · rw [if_neg hempty]
    -- the texts that are there get the anchors
    obtain ⟨hdressed, -⟩ := setTexts_dressed hbare
      (fun i data => setTextMinimal data (desired (leads prev (real nodes)) (trails next (real nodes)) (texts nodes).length i data)) 0
    refine ⟨(texts nodes).map stripStray, hdressed.bare, ?_, ?_, rfl, ?_, ?_⟩
    · apply apart_of_shape hdressed.shape ?_ h
      intro node hin
      have hnode : isBare [node] = true := by
        have hall := List.all_eq_true.mp hdressed.bare node hin
        rw [isBare, all_cons, all_nil, Bool.and_true]
        exact hall
      rcases bare_cases hnode with ⟨data, rfl⟩ | ⟨children, rfl, hchildren⟩
      · trivial
      · obtain ⟨children', hin', hlen⟩ := hdressed.inner children hin
        have hsingle := (single_of_apart h hin').1
        exact ⟨by omega, hchildren⟩
    · have hset := @setFrom_desired 0 (texts nodes).length (texts nodes) (Nat.zero_add _) (leads prev (real nodes)) (trails next (real nodes))
      rw [hdressed.texts, hset]
      rfl
    · intro data hdata
      obtain ⟨text, -, rfl⟩ := List.mem_map.mp hdata
      exact stripStray_stripStray text
    · intro hnil
      rw [map_eq_nil_iff] at hnil
      exact absurd (List.isEmpty_iff.mpr hnil) hempty

theorem items_settled {chars : Units} {ds : List Units} (h : Settled prev next chars nodes ds) :
    items nodes = units (anchor (leads prev chars) ++ chars ++ anchor (trails next chars)) := by
  rw [items_bare h.bare, h.texts, flatten_dress h.none, h.flatten]

/-! ### Again -/

theorem isBare_dropEmpty (h : isBare nodes = true) : isBare (dropEmpty nodes) = true := by
  rw [dropEmpty, isBare, List.all_map, List.all_eq_true]
  intro node hin
  have hnode := List.all_eq_true.mp h node (mem_filter.mp hin).1
  cases node with
  | text data => rfl
  | cmd children =>
    have hchildren : (children.filter fun child => !child.isEmptyText).all Dom.isText = true := by
      rw [List.all_eq_true]
      intro child hchild
      exact List.all_eq_true.mp hnode child (mem_filter.mp hchild).1
    exact hchildren
  | chip _ | br | block _ | other => exact nomatch hnode

theorem texts_dropEmpty (h : isBare nodes = true) : texts (dropEmpty nodes) = (texts nodes).filter fun data => !data.isEmpty := by
  have hinner : ∀ children : List Dom, children.all Dom.isText = true →
      innerTexts (children.filter fun child => !child.isEmptyText) = (innerTexts children).filter fun data => !data.isEmpty := by
    intro children hall
    induction children with
    | nil => rfl
    | cons child children ih =>
      obtain ⟨⟨data, rfl⟩, hchildren⟩ := text_of_all hall
      cases data with
      | nil => exact ih hchildren
      | cons ch data => exact congrArg ((ch :: data) :: ·) (ih hchildren)
  rw [texts_eq, texts_eq]
  induction nodes with
  | nil => rfl
  | cons node nodes ih =>
    obtain ⟨hnode, hnodes⟩ := isBare_cons.mp h
    have hrest := ih hnodes
    rcases bare_cases hnode with ⟨data, rfl⟩ | ⟨children, rfl, hchildren⟩
    · cases data with
      | nil => exact hrest
      | cons ch data => exact congrArg ((ch :: data) :: ·) hrest
    · rw [flatMap_cons, filter_append, ← hrest, Dom.texts, ← hinner children hchildren]
      rfl

/-- A run that is settled stays so, but for the texts that are empty. -/
theorem settle_again {chars : Units} {ds : List Units} (h : Settled prev next chars nodes ds) :
    settle prev next (dropEmpty nodes) = (dropEmpty nodes, false) := by
  obtain ⟨kept, hkept, hflat, hsub, hnone⟩ := filter_dress h.none
  have htexts : texts (dropEmpty nodes) = dress (leads prev chars) (trails next chars) kept := by
    rw [texts_dropEmpty h.bare, h.texts, hkept]
  have hvisible : ∀ data ∈ kept, stripStray data = data := fun data hdata => h.visible data (hsub data hdata)
  have hreal : real (dropEmpty nodes) = chars := by
    rw [real, htexts, strip_dress hvisible, hflat, h.flatten]
  unfold settle
  dsimp only
  rw [← real, ← leads, ← trails, hreal]
  by_cases hempty : (texts (dropEmpty nodes)).isEmpty = true
  · have hnil := List.isEmpty_iff.mp hempty
    rw [htexts, dress_eq_nil] at hnil
    obtain ⟨hlead, htrail⟩ := hnone hnil
    rw [if_pos hempty, hlead, htrail]
    rfl
  · rw [if_neg hempty]
    apply setTexts_same (isBare_dropEmpty h.bare)
    -- each text is what it should be
    have hset := @setFrom_desired 0 (texts (dropEmpty nodes)).length (texts (dropEmpty nodes)) (Nat.zero_add _)
      (leads prev chars) (trails next chars)
    have hwant : (texts (dropEmpty nodes)).map stripStray = kept := by rw [htexts, strip_dress hvisible]
    rw [hwant] at hset
    have hsame : (setFrom (fun i data => setTextMinimal data
        (desired (leads prev chars) (trails next chars) (texts (dropEmpty nodes)).length i data)) 0 (texts (dropEmpty nodes))).map Prod.fst
          = texts (dropEmpty nodes) := by
      rw [hset, htexts]
      rfl
    exact setFrom_same _ hsame

/-! ## The field -/

/-- Nodes without a chip are put to the run. -/
theorem settleFrom_bare (h : isBare a = true) : settleFrom prev nodes (a ++ rest) = settleFrom prev (nodes ++ a) rest := by
  induction a generalizing nodes with
  | nil => rw [append_nil]; rfl
  | cons node a ih =>
    obtain ⟨hnode, ha⟩ := isBare_cons.mp h
    have hnext := @ih (nodes ++ [node]) ha
    rw [append_assoc, singleton_append] at hnext
    rcases bare_cases hnode with ⟨data, rfl⟩ | ⟨children, rfl, -⟩
    · exact hnext
    · exact hnext

theorem settleFrom_chip (prev : Option Units) (nodes : List Dom) (img : Units) (rest : List Dom) :
    settleFrom prev nodes (.chip img :: rest)
      = ((settle prev (some img) nodes).1 ++ .chip img :: (settleFrom (some img) [] rest).1,
        (settle prev (some img) nodes).2 || (settleFrom (some img) [] rest).2) := rfl

/-- A flat field is a run, and a chip with more behind it or nothing. -/
theorem run_or_chip (h : isFlat root = true) :
    isBare root = true ∨ ∃ run img rest, root = run ++ .chip img :: rest ∧ isBare run = true ∧ isFlat rest = true := by
  induction root with
  | nil => exact .inl rfl
  | cons node root ih =>
    obtain ⟨hnode, hroot⟩ := isFlat_cons.mp h
    have hbare : isBare [node] = true →
        isBare (node :: root) = true
          ∨ ∃ run img rest, node :: root = run ++ .chip img :: rest ∧ isBare run = true ∧ isFlat rest = true := by
      intro hbare
      rcases ih hroot with hall | ⟨run, img, rest, rfl, hrun, hrest⟩
      · exact .inl (isBare_cons.mpr ⟨hbare, hall⟩)
      · exact .inr ⟨node :: run, img, rest, rfl, isBare_cons.mpr ⟨hbare, hrun⟩, hrest⟩
    rcases flat_cases hnode with ⟨data, rfl⟩ | ⟨img, rfl⟩ | ⟨children, rfl, hchildren⟩
    · exact hbare rfl
    · exact .inr ⟨[], img, root, rfl, rfl, hroot⟩
    · apply hbare
      rw [isBare, all_cons, all_nil, Bool.and_true]
      exact hchildren

theorem items_append (a b : List Dom) : items (a ++ b) = items a ++ items b := flatMap_append

theorem stripped_bare (h : isBare nodes = true) : stripped (items nodes) = units (real nodes) := by
  have hstrip : ∀ l : List Units, stripStray l.flatten = (l.map stripStray).flatten := by
    intro l
    induction l with
    | nil => rfl
    | cons data l ih => rw [flatten_cons, stripStray_append, ih, map_cons, flatten_cons]
  rw [items_bare h, stripped_units, hstrip, real]

/-- What one pass over the nodes from a chip or the beginning on leaves, and what another one does. -/
structure Fixed (prev : Option Units) (root root' : List Dom) : Prop where
  apart : Apart root'
  items : items root' = anchored (prev.map .chip) (stripped (items root))
  again : settleFrom prev [] (dropEmpty root') = (dropEmpty root', false)

theorem dropEmpty_append_chip (a : List Dom) (img : Units) (b : List Dom) :
    dropEmpty (a ++ .chip img :: b) = dropEmpty a ++ .chip img :: dropEmpty b := by
  rw [dropEmpty, filter_append, map_append]
  rfl

theorem settleFrom_fixed (h : Apart root) (prev : Option Units) : Fixed prev root (settleFrom prev [] root).1 := by
  induction hlen : root.length using Nat.strongRecOn generalizing root prev with
  | ind n ih =>
    rcases run_or_chip (flat_of_apart h) with hbare | ⟨run, img, rest, rfl, hbare, -⟩
    -- the last run
    · have hsettle : settleFrom prev [] root = settle prev none root := by
        have hrun := @settleFrom_bare [] [] root prev hbare
        rw [append_nil, nil_append] at hrun
        exact hrun
      obtain ⟨ds, hds⟩ := settle_settled prev none hbare h
      rw [hsettle]
      refine ⟨hds.apart, ?_, ?_⟩
      · rw [items_settled hds, stripped_bare hbare, anchored_run_end]
        rfl
      · have hrun := @settleFrom_bare [] [] _ prev (isBare_dropEmpty hds.bare)
        rw [append_nil, nil_append] at hrun
        rw [hrun]
        exact settle_again hds
    -- a run, a chip, and what stands behind it
    · obtain ⟨hrun, hrest⟩ := apart_append_chip.mp h
      obtain ⟨ds, hds⟩ := settle_settled prev (some img) hbare hrun
      have hmore := ih rest.length (by rw [← hlen, length_append, length_cons]; omega) hrest (some img) rfl
      rw [settleFrom_bare hbare, nil_append, settleFrom_chip]
      refine ⟨apart_append_chip.mpr ⟨hds.apart, hmore.apart⟩, ?_, ?_⟩
      · have hchip : ∀ rest : List Dom, Canon.items (.chip img :: rest) = .chip img :: Canon.items rest := fun rest => items_cons _ _
        have hkeep : ∀ l : List Item, stripped (.chip img :: l) = .chip img :: stripped l := fun l => filter_cons_of_pos rfl
        rw [items_append, hchip, items_settled hds, hmore.items, items_append, stripped_append, stripped_bare hbare, hchip, hkeep,
          anchored_run_chip]
        rfl
      · dsimp only
        rw [dropEmpty_append_chip, settleFrom_bare (isBare_dropEmpty hds.bare), nil_append, settleFrom_chip,
          settle_again hds, hmore.again]
        rfl

/-- The field that `fixAnchors` leaves has the value that it had, and an anchor in each place that
wants one. -/
theorem fixAnchors_items (h : isFlat root = true) :
    serializeEditor (fixAnchors root).1 = serializeEditor root ∧ items (fixAnchors root).1 = anchored none (stripped (items root)) := by
  obtain ⟨hapart, hitems⟩ := normalize_flat h
  have hfixed : Fixed none (normalize root) (fixAnchors root).1 := settleFrom_fixed hapart none
  have hanchored := hfixed.items
  rw [hitems] at hanchored
  refine ⟨?_, hanchored⟩
  rw [serializeEditor_flat (flat_of_apart hfixed.apart), hanchored, toText_anchored, toText_stripped, serializeEditor_flat h]

/-- The field that `fixAnchors` leaves: it has the value that it had and an anchor in each place that
wants one, another pass takes out the texts that were left empty and says that nothing changed, and
the point of each offset stands for it. -/
theorem fixAnchors_canonical (root : List Dom) (h : isFlat root = true) :
    serializeEditor (fixAnchors root).1 = serializeEditor root
      ∧ items (fixAnchors root).1 = anchored none (stripped (items root))
      ∧ fixAnchors (fixAnchors root).1 = (dropEmpty (fixAnchors root).1, false)
      ∧ ∀ offset ≤ (serializeEditor root).length,
        Seats (fixAnchors root).1 offset (canonicalPoint (fixAnchors root).1 offset) := by
  obtain ⟨hvalue, hanchored⟩ := fixAnchors_items h
  have hfixed : Fixed none (normalize root) (fixAnchors root).1 := settleFrom_fixed (normalize_flat h).1 none
  refine ⟨hvalue, hanchored, ?_, ?_⟩
  · have hnormal := normalize_apart hfixed.apart
    have hagain := hfixed.again
    rw [← hnormal] at hagain ⊢
    exact hagain
  · intro offset hle
    rw [← hvalue] at hle
    exact canonicalPoint_seats (flat_of_apart hfixed.apart) hle

/-- A chip between a text and a span with a line break. -/
theorem fixAnchors_canonical_chip :
    serializeEditor (fixAnchors [.text [97], .chip [49], .cmd [.text [10]]]).1 = serializeEditor [.text [97], .chip [49], .cmd [.text [10]]]
      ∧ items (fixAnchors [.text [97], .chip [49], .cmd [.text [10]]]).1
        = anchored none (stripped (items [.text [97], .chip [49], .cmd [.text [10]]]))
      ∧ fixAnchors (fixAnchors [.text [97], .chip [49], .cmd [.text [10]]]).1
        = (dropEmpty (fixAnchors [.text [97], .chip [49], .cmd [.text [10]]]).1, false)
      ∧ ∀ offset ≤ (serializeEditor [.text [97], .chip [49], .cmd [.text [10]]]).length,
        Seats (fixAnchors [.text [97], .chip [49], .cmd [.text [10]]]).1 offset
          (canonicalPoint (fixAnchors [.text [97], .chip [49], .cmd [.text [10]]]).1 offset) :=
  fixAnchors_canonical [.text [97], .chip [49], .cmd [.text [10]]] rfl

/-- Behind a chip that another follows on its line stands an anchor, beside the one before the other;
and a text that was left empty goes when the pass is run again. -/
theorem anchor_between_chips :
    items (fixAnchors [.chip [49], .chip [50]]).1
        = [.unit ZWSP, .chip [49], .unit ZWSP, .unit ZWSP, .chip [50], .unit ZWSP]
      ∧ (fixAnchors (fixAnchors [.text [ZWSP]]).1).1 ≠ (fixAnchors [.text [ZWSP]]).1 := by
  refine ⟨rfl, ?_⟩
  intro h
  exact cons_ne_nil _ _ h.symm

end

end Lpm.Composer.Canon
