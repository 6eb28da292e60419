/-
The text of a dynamic label: `render` of `label_template.rs`.

`segments` is the reading of a template: stretches of text and known parts, which depend on
the template alone. `render_loop_eq` says that the loop goes through them in order, putting
in for each part what it is given; so a value is never read again.
-/
import Lpm.Labels.Command
import Lpm.Lib.Patterns

set_option autoImplicit false

namespace Lpm.Labels

open Option Function

open RustText Utf8

/-! ## Parts -/

inductive Bump where
  | patch
  | minor
  | major
  deriving DecidableEq

inductive Var where
  | project
  | branch
  | tag (arg : Str)
  | tag_age (arg : Str)
  | next (bump : Bump) (arg : Str)
  deriving DecidableEq

inductive Part where
  | var (v : Var)
  | cmd (text : Str)
  deriving DecidableEq

/-- `parse_var`. -/
def parse_var (inner : Str) : Option Var :=
  let inner := trim inner
  let (name, arg) := match split_once ':' inner with
    | some (name, arg) => (trim name, trim arg)
    | none => (inner, [])
  if name = "project".toList ∧ arg = [] then some .project
  else if name = "git.branch".toList ∧ arg = [] then some .branch
  else if name = "git.tag".toList then some (.tag arg)
  else if name = "git.tagAge".toList then some (.tag_age arg)
  else if name = "git.nextPatch".toList then some (.next .patch arg)
  else if name = "git.nextMinor".toList then some (.next .minor arg)
  else if name = "git.nextMajor".toList then some (.next .major arg)
  else none

/-! ## Rendering -/

def VAR_OPEN : Str := ['\x7b', '\x7b']

def VAR_CLOSE : Str := ['\x7d', '\x7d']

def CMD_OPEN : Str := ['$', '(']

/-- `s[..k]` and `s[k..]`, where `k` is the place of a character. -/
def split_at_byte : ℕ → Str → Str × Str
  | _, [] => ([], [])
  | 0, s => ([], s)
  | k + 1, c :: s =>
    let halves := split_at_byte (k + 1 - (as_bytes [c]).length) s
    (c :: halves.1, halves.2)

/-- The first `\x7b\x7b` or `$(`: what stands before it, whether it is a `$(`, and what follows. -/
def next_opener (rest : Str) : Option (Str × Bool × Str) :=
  match split_str VAR_OPEN rest, split_str CMD_OPEN rest with
  | none, none => none
  | some (a, after), none => some (a, false, after)
  | none, some (a, after) => some (a, true, after)
  | some (a, after), some (a', after') =>
    if a'.length < a.length then some (a', true, after') else some (a, false, after)

def opener (is_cmd : Bool) : Str := if is_cmd then CMD_OPEN else VAR_OPEN

/-- What closes behind an opener: the part, if it is a known one, its text up to its close,
and what follows. -/
def found (is_cmd : Bool) (after : Str) : Option (Option Part × Str × Str) :=
  if is_cmd then
    (command_end after).map fun close =>
      let (inner, behind) := split_at_byte close after
      let cmd := trim inner
      (if cmd.isEmpty then none else some (.cmd cmd), inner ++ behind.take 1, behind.drop 1)
  else
    (split_str VAR_CLOSE after).map fun (inner, behind) =>
      ((parse_var inner).map .var, inner ++ VAR_CLOSE, behind)

theorem split_at_byte_append (k : ℕ) (s : Str) : (split_at_byte k s).1 ++ (split_at_byte k s).2 = s := by
  induction s generalizing k with
  | nil =>
    cases k with
    | zero => rfl
    | succ k => rfl
  | cons c s ih =>
    cases k with
    | zero => rfl
    | succ k =>
      rw [split_at_byte]
      exact congrArg (c :: ·) (ih _)

variable {is_cmd : Bool} {rest before after : Str}

theorem next_opener_eq
    (h : next_opener rest = some (before, is_cmd, after)) : rest = before ++ opener is_cmd ++ after := by
  unfold next_opener at h
  split at h
  · exact nomatch h
  next hvar _ =>
    obtain ⟨rfl, rfl, rfl⟩ : _ = before ∧ false = is_cmd ∧ _ = after := by simpa using h
    exact split_str_eq hvar
  next _ hcmd =>
    obtain ⟨rfl, rfl, rfl⟩ : _ = before ∧ true = is_cmd ∧ _ = after := by simpa using h
    exact split_str_eq hcmd
  next hvar hcmd =>
    split_ifs at h
    · obtain ⟨rfl, rfl, rfl⟩ : _ = before ∧ true = is_cmd ∧ _ = after := by simpa using h
      exact split_str_eq hcmd
    · obtain ⟨rfl, rfl, rfl⟩ : _ = before ∧ false = is_cmd ∧ _ = after := by simpa using h
      exact split_str_eq hvar

theorem found_eq {after raw rest : Str} {part : Option Part}
    (h : found is_cmd after = some (part, raw, rest)) : after = raw ++ rest := by
  unfold found at h
  split_ifs at h
  · obtain ⟨close, -, heq⟩ := map_eq_some_iff.mp h
    obtain ⟨-, hpair⟩ := Prod.mk.inj heq
    cases hpair
    rw [List.append_assoc, List.take_append_drop, split_at_byte_append]
  · obtain ⟨⟨inner, behind⟩, hsplit, heq⟩ := map_eq_some_iff.mp h
    obtain ⟨-, rfl, rfl⟩ : _ = part ∧ _ = raw ∧ _ = rest := by simpa using heq
    exact split_str_eq hsplit

theorem length_after
    (h : next_opener rest = some (before, is_cmd, after)) : after.length < rest.length := by
  have hopen : 0 < (opener is_cmd).length := by
    cases is_cmd with
    | false => decide
    | true => decide
  rw [next_opener_eq h, List.length_append, List.length_append]
  omega

theorem length_found {rest before after raw rest' : Str} {part : Option Part}
    (h : next_opener rest = some (before, is_cmd, after)) (h' : found is_cmd after = some (part, raw, rest')) :
    rest'.length < rest.length := by
  refine Nat.lt_of_le_of_lt ?_ (length_after h)
  rw [found_eq h', List.length_append]
  omega

/-- The loop of `render`: the text from here on, whether a value was empty, and the state of
the closure that gives the values. -/
def render_loop {σ : Type} (value : σ → Part → Str × σ) (s : σ) (emptied : Bool) (rest : Str) : Str × Bool × σ :=
  match _h : next_opener rest with
  | none => (rest, emptied, s)
  | some (before, is_cmd, after) =>
    match _h' : found is_cmd after with
    | some (some part, _, rest') =>
      let given := value s part
      let out := render_loop value given.2 (emptied || given.1.isEmpty) rest'
      (before ++ given.1 ++ out.1, out.2)
    | some (none, raw, rest') =>
      let out := render_loop value s emptied rest'
      (before ++ opener is_cmd ++ raw ++ out.1, out.2)
    | none =>
      let out := render_loop value s emptied after
      (before ++ opener is_cmd ++ out.1, out.2)
termination_by rest.length
decreasing_by
  · exact length_found _h _h'
  · exact length_found _h _h'
  · exact length_after _h

def SEPARATORS : List Str :=
  ["·".toList, "•".toList, "|".toList, "-".toList, "–".toList, "—".toList, "/".toList, ":".toList]

/-- `tidy`. -/
def tidy (s : Str) : Str :=
  let s := replace "[]".toList [] (replace "()".toList [] s)
  let words := (split_whitespace s).foldl (fun words w =>
    if SEPARATORS.contains w && words.getLast?.all SEPARATORS.contains then words else words ++ [w]) []
  join_words (words.reverse.dropWhile SEPARATORS.contains).reverse

/-- `render`. -/
def render {σ : Type} (value : σ → Part → Str × σ) (s : σ) (template : Str) : Str × σ :=
  let (out, emptied, s) := render_loop value s false template
  (if emptied then tidy out else out, s)

/-! ## What a template is -/

/-- A stretch of a template, and the known part it is. -/
structure Segment where
  raw : Str
  part : Option Part
  deriving DecidableEq

/-- What the loop of `render` reads. -/
def segments (rest : Str) : List Segment :=
  match _h : next_opener rest with
  | none => [⟨rest, none⟩]
  | some (before, is_cmd, after) =>
    match _h' : found is_cmd after with
    | some (some part, raw, rest') => ⟨before, none⟩ :: ⟨opener is_cmd ++ raw, some part⟩ :: segments rest'
    | some (none, raw, rest') => ⟨before ++ opener is_cmd ++ raw, none⟩ :: segments rest'
    | none => ⟨before ++ opener is_cmd, none⟩ :: segments after
termination_by rest.length
decreasing_by
  · exact length_found _h _h'
  · exact length_found _h _h'
  · exact length_after _h

/-- The known parts of a template in order. -/
def parts (template : Str) : List Part := (segments template).filterMap Segment.part

/-- Each text as written and each part as it is given. -/
def filled {σ : Type} (value : σ → Part → Str × σ) : σ → List Segment → Str
  | _, [] => []
  | s, ⟨raw, none⟩ :: segs => raw ++ filled value s segs
  | s, ⟨_, some part⟩ :: segs => (value s part).1 ++ filled value (value s part).2 segs

/-- What is given for parts one after the other, and the state in the end. -/
def answers {σ : Type} (value : σ → Part → Str × σ) : σ → List Part → List Str × σ
  | s, [] => ([], s)
  | s, part :: ps =>
    let rest := answers value (value s part).2 ps
    ((value s part).1 :: rest.1, rest.2)

section
variable {σ τ : Type} {rest template : Str}

variable {before after raw rest' : Str} {is_cmd : Bool} {part : Part}

theorem segments_none (h : next_opener rest = none) : segments rest = [⟨rest, none⟩] := by
  rw [segments]
  split
  · rfl
  next hsome =>
    cases h.symm.trans hsome

/-- One turn of the reading, once the opener is found. -/
theorem segments_some (h : next_opener rest = some (before, is_cmd, after)) :
    segments rest = match found is_cmd after with
      | some (some part, raw, rest') => ⟨before, none⟩ :: ⟨opener is_cmd ++ raw, some part⟩ :: segments rest'
      | some (none, raw, rest') => ⟨before ++ opener is_cmd ++ raw, none⟩ :: segments rest'
      | none => ⟨before ++ opener is_cmd, none⟩ :: segments after := by
  rw [segments]
  split
  next hnone =>
    cases h.symm.trans hnone
  next hsome =>
    cases h.symm.trans hsome
    split
    next hfound =>
      rw [hfound]
    next hfound =>
      rw [hfound]
    next hfound =>
      rw [hfound]

variable (value : σ → Part → Str × σ) (s : σ) (emptied : Bool)

theorem render_none (h : next_opener rest = none) :
    render_loop value s emptied rest = (rest, emptied, s) := by
  rw [render_loop]
  split
  · rfl
  next hsome =>
    cases h.symm.trans hsome

/-- One turn of the loop, once the opener is found. -/
theorem render_some
    (h : next_opener rest = some (before, is_cmd, after)) :
    render_loop value s emptied rest = match found is_cmd after with
      | some (some part, _, rest') =>
        let given := value s part
        let out := render_loop value given.2 (emptied || given.1.isEmpty) rest'
        (before ++ given.1 ++ out.1, out.2)
      | some (none, raw, rest') =>
        let out := render_loop value s emptied rest'
        (before ++ opener is_cmd ++ raw ++ out.1, out.2)
      | none =>
        let out := render_loop value s emptied after
        (before ++ opener is_cmd ++ out.1, out.2) := by
  rw [render_loop]
  split
  next hnone =>
    cases h.symm.trans hnone
  next hsome =>
    cases h.symm.trans hsome
    split
    next hfound =>
      rw [hfound]
    next hfound =>
      rw [hfound]
    next hfound =>
      rw [hfound]

variable (template : Str)

/-- The segments are the template. -/
theorem segments_raw : (segments template).flatMap Segment.raw = template := by
  induction template using segments.induct with
  | case1 rest h =>
    rw [segments_none h]
    simp
  | case2 rest before is_cmd after h part raw rest' h' ih
  | case3 rest before is_cmd after h raw rest' h' ih =>
    rw [segments_some h, h', next_opener_eq h, found_eq h']
    simp [ih]
  | case4 rest before is_cmd after h h' ih =>
    rw [segments_some h, h', next_opener_eq h]
    simp [ih]

/-- The loop goes through the segments: the text, whether a value was empty, and the state. -/
theorem render_loop_eq :
    render_loop value s emptied template
      = (filled value s (segments template),
        emptied || (answers value s (parts template)).1.any List.isEmpty,
        (answers value s (parts template)).2) := by
  unfold parts
  induction template using segments.induct generalizing s emptied with
  | case1 rest h =>
    rw [render_none _ _ _ h, segments_none h]
    simp [filled, answers]
  | case2 rest before is_cmd after h part raw rest' h' ih =>
    rw [render_some _ _ _ h, segments_some h, h']
    dsimp only
    rw [ih]
    simp [filled, answers, Bool.or_assoc]
  | case3 rest before is_cmd after h raw rest' h' ih | case4 rest before is_cmd after h h' ih =>
    rw [render_some _ _ _ h, segments_some h, h']
    dsimp only
    rw [ih]
    simp [filled]

/-! ## What is asked for -/

/-- A closure that notes what it is asked for. -/
def noted (value : σ → Part → Str × σ) : σ × List Part → Part → Str × (σ × List Part) :=
  fun s part => ((value s.1 part).1, (value s.1 part).2, s.2 ++ [part])

/-- The parts `render` asks for, in order. -/
def asked (value : σ → Part → Str × σ) (s : σ) (template : Str) : List Part :=
  (render (noted value) (s, []) template).2.2

theorem answers_noted (log ps : List Part) :
    (answers (noted value) (s, log) ps).2.2 = log ++ ps := by
  induction ps generalizing s log with
  | nil => exact (List.append_nil log).symm
  | cons part ps ih =>
    rw [answers]
    dsimp only
    rw [noted]
    dsimp only
    rw [ih, List.append_assoc]
    rfl

theorem asked_eq : asked value s template = parts template := by
  rw [asked, render, render_loop_eq]
  exact answers_noted value s [] _

/-- A label is read as the shell would read its commands, and once: what `render` asks for is
the template's alone, and when no part is empty the text is the template with the known
parts filled in. -/
theorem label_read_once :
    (∀ (s : Str) (k : ℕ), command_end s = some k ↔
      ∃ a b, s = a ++ ')' :: b ∧ Command a ∧ k = (as_bytes a).length)
    ∧ (∀ (σ τ : Type) (value : σ → Part → Str × σ) (value' : τ → Part → Str × τ) (s : σ) (s' : τ) (template : Str),
      asked value s template = asked value' s' template)
    ∧ ∀ (σ : Type) (value : σ → Part → Str × σ) (s : σ) (template : Str),
      (segments template).flatMap Segment.raw = template
        ∧ (segments template).filterMap Segment.part = asked value s template
        ∧ ((∀ a ∈ (answers value s (asked value s template)).1, a ≠ []) →
          (render value s template).1 = filled value s (segments template)) := by
  refine ⟨command_end_iff, ?_, ?_⟩
  · intro σ τ value value' s s' template
    rw [asked_eq, asked_eq]
  · intro σ value s template
    refine ⟨segments_raw template, (asked_eq value s template).symm, fun hfull => ?_⟩
    rw [asked_eq] at hfull
    have hnone : (answers value s (parts template)).1.any List.isEmpty = false := by
      rw [List.any_eq_false]
      intro a ha
      simpa using hfull a ha
    rw [render, render_loop_eq, hnone]
    rfl

/-- A template with a nested command, a known variable and an unknown one. -/
theorem label_read_once_release :
    (render (fun (n : ℕ) _ => ("v".toList ++ (toString n).toList, n + 1)) 0
        "R \x7b\x7bgit.tag:v*\x7d\x7d $(a \"$(b ')')\" (c)) \x7b\x7bx\x7d\x7d".toList).1
      = "R v0 v1 \x7b\x7bx\x7d\x7d".toList :=
  ((label_read_once.2.2 ℕ (fun (n : ℕ) _ => ("v".toList ++ (toString n).toList, n + 1)) 0
    "R \x7b\x7bgit.tag:v*\x7d\x7d $(a \"$(b ')')\" (c)) \x7b\x7bx\x7d\x7d".toList).2.2 (by decide +kernel)).trans
      (by decide +kernel)

end

end Lpm.Labels
