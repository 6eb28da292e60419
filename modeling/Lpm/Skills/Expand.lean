/-
A skill's prompt filled in: `variables`, `expand_body` and `positional` of
`lpm_commands_expand.rs`.

The body is read from left to right. A token goes from the next `\x7b\x7b` to the `\x7d\x7d` after it,
and it is a variable when what stands between is a name. `pieces` is that reading, and
`replace_vars` goes through it. Every `$ARGUMENTS` is replaced afterwards, in the text with
the values in it.
-/
import Lpm.Lib.Patterns
import Lpm.Lib.Distinct

set_option autoImplicit false

namespace Lpm.Skills

open Option

open RustText

def AUTO_VARS : List Str := ["branch".toList, "project".toList, "dir".toList]

def ARGUMENTS : Str := "$ARGUMENTS".toList

def OPEN : Str := ['\x7b', '\x7b']

def CLOSE : Str := ['\x7d', '\x7d']

structure Expanded where
  text : Str
  missing : List Str
  deriving DecidableEq

def is_var_name (var : Str) : Bool :=
  !var.isEmpty && var.all fun c => c.isAlphanum || c == '_' || c == '-'

/-! ## The tokens of a body -/

theorem length_split {pat s a b : Str} (hpat : pat ≠ []) (h : split_str pat s = some (a, b)) :
    b.length < s.length := by
  have hlen : s.length = a.length + pat.length + b.length := by
    rw [split_str_eq h, List.length_append, List.length_append]
  have hpos := List.length_pos_iff.mpr hpat
  omega

/-- What follows a token is shorter. -/
theorem length_rest {body before after inner rest : Str} (h : split_str OPEN body = some (before, after))
    (h' : split_str CLOSE after = some (inner, rest)) : rest.length < body.length :=
  (length_split (List.cons_ne_nil _ _) h').trans (length_split (List.cons_ne_nil _ _) h)

/-- `replace_vars`. The closure that gives the values has a state. -/
def replace_vars {σ : Type} (value : σ → Str → Option Str × σ) (s : σ) (body : Str) : Str × σ :=
  match _h : split_str OPEN body with
  | none => (body, s)
  | some (before, after) =>
    match _h' : split_str CLOSE after with
    | none => (before ++ OPEN ++ after, s)
    | some (inner, rest) =>
      let var := trim inner
      let token := OPEN ++ inner ++ CLOSE
      let given := if is_var_name var then value s var else (none, s)
      let filled := replace_vars value given.2 rest
      (before ++ given.1.getD token ++ filled.1, filled.2)
termination_by body.length
decreasing_by exact length_rest _h _h'

/-- A stretch of a body, and the variable it is. -/
structure Piece where
  raw : Str
  var : Option Str
  deriving DecidableEq

/-- What the loop of `replace_vars` reads. -/
def pieces (body : Str) : List Piece :=
  match _h : split_str OPEN body with
  | none => [⟨body, none⟩]
  | some (before, after) =>
    match _h' : split_str CLOSE after with
    | none => [⟨before ++ OPEN ++ after, none⟩]
    | some (inner, rest) =>
      ⟨before, none⟩ :: ⟨OPEN ++ inner ++ CLOSE, if is_var_name (trim inner) then some (trim inner) else none⟩
        :: pieces rest
termination_by body.length
decreasing_by exact length_rest _h _h'

/-- The variables of a body, one for each of its tokens. -/
def names (body : Str) : List Str := (pieces body).filterMap Piece.var

/-! ## The expansion -/

/-- `variables`. -/
def «variables» (body : Str) : List Str :=
  (replace_vars (fun (out : List Str) var => (none, if out.contains var then out else out ++ [var])) [] body).2

/-- `asked_vars`. -/
def asked_vars (body : Str) : List Str := («variables» body).filter fun v => !AUTO_VARS.contains v

/-- The loop of `positional`, by the number of values that are still to come. -/
def positional_from : ℕ → Str → List Str
  | 0, _ => []
  | 1, rest => if rest.isEmpty then [] else [rest]
  | n + 2, rest =>
    if rest.isEmpty then []
    else rest.takeWhile (fun c => !is_whitespace c) ::
      positional_from (n + 1) (trim_start (rest.dropWhile fun c => !is_whitespace c))

/-- `positional`. -/
def positional (args : Str) (n : ℕ) : List Str := positional_from n (trim args)

/-- The value of a variable: an automatic one, or the one at its place among those asked for. -/
def given (asks values : List Str) (auto : Str → Option Str) (var : Str) : Option Str :=
  if AUTO_VARS.contains var then auto var else (asks.idxOf? var).bind fun i => values[i]?

/-- `expand_body`. -/
def expand_body (body args : Str) (auto : Str → Option Str) : Expanded :=
  let args := trim args
  let asks := asked_vars body
  let values := positional args asks.length
  let (filled, missing) := replace_vars (fun missing var =>
    let value := given asks values auto var
    (value, if value.isNone && !missing.contains var then missing ++ [var] else missing)) [] body
  let takes_all := contains ARGUMENTS filled
  let text := replace ARGUMENTS args filled
  if !args.isEmpty && asks.isEmpty && !takes_all then ⟨trim_end text ++ "\n\n".toList ++ args, missing⟩
  else ⟨text, missing⟩

/-! ## What the loop comes to -/

section
variable {σ : Type} {body args : Str} {value : Str → Option Str} {auto : Str → Option Str} {p : Piece} {ps : List Piece}

/-- A piece with the value of its variable put in, or as it is written. -/
def Piece.filled (value : Str → Option Str) (p : Piece) : Str := (p.var.bind value).getD p.raw

theorem pieces_plain (h : split_str OPEN body = none) : pieces body = [⟨body, none⟩] := by
  rw [pieces]
  split
  · rfl
  next hsome =>
    cases h.symm.trans hsome

theorem pieces_open {before after : Str} (h : split_str OPEN body = some (before, after))
    (h' : split_str CLOSE after = none) : pieces body = [⟨before ++ OPEN ++ after, none⟩] := by
  rw [pieces]
  split
  next hnone =>
    cases h.symm.trans hnone
  next hsome =>
    cases h.symm.trans hsome
    split
    · rfl
    next hsome' =>
      cases h'.symm.trans hsome'

theorem pieces_token {before after inner rest : Str} (h : split_str OPEN body = some (before, after))
    (h' : split_str CLOSE after = some (inner, rest)) :
    pieces body
      = ⟨before, none⟩ :: ⟨OPEN ++ inner ++ CLOSE, if is_var_name (trim inner) then some (trim inner) else none⟩
        :: pieces rest := by
  rw [pieces]
  split
  next hnone =>
    cases h.symm.trans hnone
  next hsome =>
    cases h.symm.trans hsome
    split
    next hnone' =>
      cases h'.symm.trans hnone'
    next hsome' =>
      cases h'.symm.trans hsome'
      rfl

/-- The pieces are the body. -/
theorem pieces_raw (body : Str) : (pieces body).flatMap Piece.raw = body := by
  induction body using pieces.induct with
  | case1 body h =>
    rw [pieces_plain h]
    simp
  | case2 body before after h h' =>
    rw [pieces_open h h', split_str_eq h]
    simp
  | case3 body before after h inner rest h' ih =>
    rw [pieces_token h h', List.flatMap_cons, List.flatMap_cons, ih, split_str_eq h, split_str_eq h']
    simp

/-- The loop puts the values in piece by piece and goes through the variables in order. -/
theorem replace_vars_eq (value : Str → Option Str) (next : σ → Str → σ) (s : σ) (body : Str) :
    replace_vars (fun s var => (value var, next s var)) s body
      = ((pieces body).flatMap (Piece.filled value), (names body).foldl next s) := by
  unfold names
  induction body using pieces.induct generalizing s with
  | case1 body h =>
    rw [pieces_plain h, replace_vars]
    split
    · simp [Piece.filled]
    next hsome =>
      cases h.symm.trans hsome
  | case2 body before after h h' =>
    rw [pieces_open h h', replace_vars]
    split
    next hnone =>
      cases h.symm.trans hnone
    next hsome =>
      cases h.symm.trans hsome
      split
      · simp [Piece.filled]
      next hsome' =>
        cases h'.symm.trans hsome'
  | case3 body before after h inner rest h' ih =>
    rw [pieces_token h h', replace_vars]
    split
    next hnone =>
      cases h.symm.trans hnone
    next hsome =>
      cases h.symm.trans hsome
      split
      next hnone' =>
        cases h'.symm.trans hnone'
      next hsome' =>
        cases h'.symm.trans hsome'
        dsimp only
        rw [ih]
        -- a token that is no variable name is left as it stands
        by_cases hvar : is_var_name (trim inner) = true
        · rw [if_pos hvar, if_pos hvar]
          simp [Piece.filled]
        · rw [if_neg hvar, if_neg hvar]
          simp [Piece.filled]

/-! ## Variables and their values -/

theorem variables_eq (body : Str) : «variables» body = Distinct.pushed [] (names body) := by
  rw [«variables», replace_vars_eq (fun _ => none) fun (out : List Str) var => if out.contains var then out else out ++ [var]]
  simp only [List.contains_iff_mem]
  rfl

theorem mem_variables {var : Str} : var ∈ «variables» body ↔ var ∈ names body := by
  rw [variables_eq, Distinct.mem_pushed]
  simp

/-- The asked variables are in the order of their first tokens, each once. -/
theorem asked_in_order (body : Str) :
    (asked_vars body).Pairwise fun a b => (names body).idxOf a < (names body).idxOf b := by
  rw [asked_vars, variables_eq]
  exact (Distinct.pushed_in_order _).sublist List.filter_sublist

theorem mem_asked {var : Str} : var ∈ asked_vars body ↔ var ∈ names body ∧ var ∉ AUTO_VARS := by
  rw [asked_vars, List.mem_filter, mem_variables]
  simp

/-- What has no value is noted once. -/
theorem foldl_missing (vars missing : List Str) :
    vars.foldl (fun missing var =>
        if (value var).isNone && !missing.contains var then missing ++ [var] else missing) missing
      = Distinct.pushed missing (vars.filter fun var => (value var).isNone) := by
  induction vars generalizing missing with
  | nil => rfl
  | cons var vars ih =>
    rw [List.foldl_cons, ih]
    by_cases hnone : (value var).isNone = true
    · rw [List.filter_cons_of_pos (p := fun v => (value v).isNone) hnone, hnone, Bool.true_and]
      have hpush : (if (!missing.contains var) = true then missing ++ [var] else missing) = Distinct.push missing var := by
        rw [Distinct.push]
        by_cases hin : var ∈ missing
        · simp [hin]
        · simp [hin]
      rw [hpush]
      rfl
    · rw [List.filter_cons_of_neg (p := fun v => (value v).isNone) hnone]
      rw [Bool.not_eq_true] at hnone
      rw [hnone, Bool.false_and, if_neg Bool.false_ne_true]

/-! ## The words of the arguments -/

/-- A text that begins with no white space is its first word and the rest. -/
theorem first_word {rest : Str} (hne : rest ≠ []) (hstart : ∀ c ∈ rest.head?, is_whitespace c = false) :
    rest.takeWhile (fun c => !is_whitespace c) ≠ []
      ∧ ∀ c ∈ (rest.dropWhile fun c => !is_whitespace c).head?, is_whitespace c = true := by
  constructor
  · cases rest with
    | nil => exact absurd rfl hne
    | cons c rest =>
      rw [List.takeWhile_cons_of_pos (by rw [hstart c rfl]; rfl)]
      exact List.cons_ne_nil _ _
  · intro c hc
    have hnot := List.head?_dropWhile_not (fun c => !is_whitespace c) rest
    rw [mem_def.mp hc] at hnot
    simpa using hnot

/-- The values are the first words, and what is left of the text after them. -/
theorem positional_from_words (n : ℕ) (text : Str) (hstart : ∀ c ∈ text.head?, is_whitespace c = false) :
    ∃ before rest, text = before ++ rest
      ∧ split_whitespace before = (split_whitespace text).take n
      ∧ (∀ c ∈ rest.head?, is_whitespace c = false)
      ∧ positional_from (n + 1) text = (split_whitespace text).take n ++ if rest = [] then [] else [rest] := by
  induction n generalizing text with
  | zero =>
    refine ⟨[], text, rfl, rfl, hstart, ?_⟩
    rw [positional_from]
    cases text with
    | nil => rfl
    | cons c text => rfl
  | succ n ih =>
    by_cases hne : text = []
    · subst hne
      exact ⟨[], [], rfl, rfl, hstart, rfl⟩
    · obtain ⟨hword, htail⟩ := first_word hne hstart
      have hletters : ∀ c ∈ text.takeWhile (fun c => !is_whitespace c), is_whitespace c = false := fun c hc => by
        simpa using List.mem_takeWhile_imp hc
      have htext : text.takeWhile (fun c => !is_whitespace c) ++ text.dropWhile (fun c => !is_whitespace c) = text :=
        List.takeWhile_append_dropWhile
      have hpos : positional_from (n + 2) text = text.takeWhile (fun c => !is_whitespace c) ::
          positional_from (n + 1) (trim_start (text.dropWhile fun c => !is_whitespace c)) := by
        rw [positional_from, if_neg (by simpa using hne)]
      revert htext hpos hletters hword htail
      generalize text.takeWhile (fun c => !is_whitespace c) = word
      generalize text.dropWhile (fun c => !is_whitespace c) = tail
      intro hword htail hletters htext hpos
      obtain ⟨before, rest, hsplit, hbefore, hrest, hvalues⟩ := ih (trim_start tail) trim_start_head
      have hspaces : tail.takeWhile is_whitespace ++ trim_start tail = tail := List.takeWhile_append_dropWhile
      have hwords : split_whitespace text = word :: split_whitespace (trim_start tail) := by
        rw [← htext, split_whitespace_word hword hletters htail, split_whitespace_trim_start]
      refine ⟨word ++ (tail.takeWhile is_whitespace ++ before), rest, ?_, ?_, hrest, ?_⟩
      · rw [List.append_assoc, List.append_assoc, ← hsplit, hspaces, htext]
      -- the word is over where the white space begins, and without any nothing is left
      · have hhead : ∀ c ∈ (tail.takeWhile is_whitespace ++ before).head?, is_whitespace c = true := by
          intro c hc
          cases tail with
          | nil =>
            rw [trim_start, List.dropWhile_nil] at hsplit
            rw [List.takeWhile_nil, (List.append_eq_nil_iff.mp hsplit.symm).1] at hc
            cases hc
          | cons d tail =>
            rw [List.takeWhile_cons_of_pos (htail d rfl)] at hc
            obtain rfl : d = c := by simpa using hc
            exact htail d rfl
        rw [split_whitespace_word hword hletters hhead, split_whitespace_spaces fun c hc => List.mem_takeWhile_imp hc,
          hbefore, hwords, List.take_succ_cons]
      · rw [hpos, hvalues, hwords, List.take_succ_cons, List.cons_append]

/-! ## `$ARGUMENTS` -/

/-- A piece settled for itself: the value of its variable, or what is written with the
arguments in it. -/
def Piece.settled (value : Str → Option Str) (args : Str) (p : Piece) : Str :=
  (p.var.bind value).getD (replace ARGUMENTS args p.raw)

/-- No `$ARGUMENTS` of the filled text takes anything from a value: one that begins in a
piece ends in it, and the piece is the body's own. -/
def Apart (value : Str → Option Str) : List Piece → Prop
  | [] => True
  | p :: ps =>
    (∀ i < (p.filled value).length, ARGUMENTS <+: (p.filled value ++ ps.flatMap (Piece.filled value)).drop i →
      p.var.bind value = none ∧ i + ARGUMENTS.length ≤ (p.filled value).length) ∧ Apart value ps

/-- It can be looked up. -/
instance decidableApart (value : Str → Option Str) : (ps : List Piece) → Decidable (Apart value ps)
  | [] => isTrue trivial
  | p :: ps =>
    have := decidableApart value ps
    inferInstanceAs (Decidable ((∀ i < (p.filled value).length,
      ARGUMENTS <+: (p.filled value ++ ps.flatMap (Piece.filled value)).drop i →
        p.var.bind value = none ∧ i + ARGUMENTS.length ≤ (p.filled value).length) ∧ Apart value ps))

theorem filled_none (h : p.var.bind value = none) : p.filled value = p.raw := by
  rw [Piece.filled, h]
  rfl

theorem replace_pieces (h : Apart value ps) :
    replace ARGUMENTS args (ps.flatMap (Piece.filled value)) = ps.flatMap (Piece.settled value args) := by
  induction ps with
  | nil => rfl
  | cons p ps ih =>
    obtain ⟨hhere, hrest⟩ := h
    rw [List.flatMap_cons, List.flatMap_cons, ← ih hrest]
    rcases hvalue : p.var.bind value with _ | v
    · rw [replace_append (by decide) fun i hi hpre => (hhere i hi hpre).2, filled_none hvalue, Piece.settled, hvalue]
      rfl
    · rw [replace_keep fun i hi hpre => absurd ((hhere i hi hpre).1.symm.trans hvalue) (by simp), Piece.filled,
        Piece.settled, hvalue]
      rfl

theorem contains_pieces (h : Apart value ps) :
    contains ARGUMENTS (ps.flatMap (Piece.filled value)) = true
      ↔ ∃ p ∈ ps, p.var.bind value = none ∧ contains ARGUMENTS p.raw = true := by
  induction ps with
  | nil =>
    rw [List.flatMap_nil, contains_false (c := '$') (by decide) List.not_mem_nil]
    exact ⟨fun h => (nomatch h), fun ⟨_, hp, _⟩ => nomatch hp⟩
  | cons p ps ih =>
    obtain ⟨hhere, hrest⟩ := h
    rw [List.flatMap_cons]
    rcases hvalue : p.var.bind value with _ | v
    · rw [contains_append fun i hi hpre => (hhere i hi hpre).2, ih hrest, filled_none hvalue,
        List.exists_mem_cons_iff]
      simp only [hvalue, true_and]
    · rw [contains_keep fun i hi hpre => absurd ((hhere i hi hpre).1.symm.trans hvalue) (by simp), ih hrest,
        List.exists_mem_cons_iff]
      simp only [hvalue, reduceCtorEq, false_and, false_or]

/-- With no value put in, the tokens keep every `$ARGUMENTS` in its piece: braces stand at
their ends. -/
theorem apart_body (body : Str) : Apart (fun _ => none) (pieces body) := by
  have hfilled : ∀ p : Piece, p.filled (fun _ => none) = p.raw := fun p => filled_none (by simp)
  have hall : ∀ ps : List Piece, ps.flatMap (Piece.filled fun _ => none) = ps.flatMap Piece.raw := by
    intro ps
    rw [funext hfilled]
  have hlast : ∀ raw, Apart (fun _ => none) [⟨raw, none⟩] := by
    intro raw
    refine ⟨fun i hi hpre => ⟨rfl, ?_⟩, trivial⟩
    have hlen := hpre.length_le
    rw [hfilled] at hi hlen ⊢
    rw [hall, List.flatMap_nil, List.append_nil, List.length_drop] at hlen
    omega
  induction body using pieces.induct with
  | case1 body h =>
    rw [pieces_plain h]
    exact hlast _
  | case2 body before after h h' =>
    rw [pieces_open h h']
    exact hlast _
  | case3 body before after h inner rest h' ih =>
    rw [pieces_token h h']
    refine ⟨fun i hi hpre => ⟨rfl, ?_⟩, fun i hi hpre => ⟨by simp, ?_⟩, ih⟩
    · rw [hfilled] at hi hpre ⊢
      rw [hall, List.flatMap_cons] at hpre
      exact length_le_of_not_mem (c := '\x7b') (by decide) (Nat.le_of_lt hi) hpre
    · rw [hfilled] at hi hpre ⊢
      have hsplit : OPEN ++ inner ++ CLOSE = OPEN ++ inner ++ ['\x7d'] ++ ['\x7d'] := by simp [CLOSE]
      rw [hsplit] at hi hpre ⊢
      rw [List.append_assoc _ _ (List.flatMap _ _)] at hpre
      rw [List.length_append, List.length_singleton] at hi ⊢
      have hle := length_le_of_not_mem (c := '\x7d') (by decide) (Nat.le_of_lt_succ hi) hpre
      omega

/-- A variable's token has no `$`. -/
theorem no_dollar {var : Str} (hp : p ∈ pieces body) (hvar : p.var = some var) : contains ARGUMENTS p.raw = false := by
  induction body using pieces.induct with
  | case1 body h =>
    rw [pieces_plain h] at hp
    rw [List.mem_singleton.mp hp] at hvar
    exact nomatch hvar
  | case2 body before after h h' =>
    rw [pieces_open h h'] at hp
    rw [List.mem_singleton.mp hp] at hvar
    exact nomatch hvar
  | case3 body before after h inner rest h' ih =>
    rw [pieces_token h h', List.mem_cons, List.mem_cons] at hp
    rcases hp with rfl | rfl | hp
    · exact nomatch hvar
    · dsimp only at hvar ⊢
      split_ifs at hvar with hname
      have hletters : '$' ∉ trim inner := by
        intro hin
        rw [is_var_name, Bool.and_eq_true, List.all_eq_true] at hname
        exact absurd (hname.2 _ hin) (by decide)
      refine contains_false (c := '$') (by decide) ?_
      intro hin
      rcases List.mem_append.mp hin with hin | hin
      · rcases List.mem_append.mp hin with hin | hin
        · exact absurd hin (by decide)
        · rcases mem_trim hin with hspace | hin
          · exact absurd hspace (by decide)
          · exact hletters hin
      · exact absurd hin (by decide)
    · exact ih hp

/-- The filled text has a `$ARGUMENTS` when the body has one. -/
theorem contains_filled (h : Apart value (pieces body)) :
    contains ARGUMENTS ((pieces body).flatMap (Piece.filled value)) = contains ARGUMENTS body := by
  have hraw : ∀ p : Piece, p.filled (fun _ => none) = p.raw := fun p => filled_none (by simp)
  have hbody := contains_pieces (apart_body body)
  rw [funext hraw, pieces_raw] at hbody
  rw [Bool.eq_iff_iff, contains_pieces h, hbody]
  constructor
  · rintro ⟨p, hp, -, hin⟩
    exact ⟨p, hp, by simp, hin⟩
  · rintro ⟨p, hp, -, hin⟩
    refine ⟨p, hp, ?_, hin⟩
    rcases hvar : p.var with _ | var
    · rfl
    · rw [no_dollar hp hvar] at hin
      exact nomatch hin

/-! ## The whole expansion -/

/-- The value of a variable of the body. -/
def value_of (body args : Str) (auto : Str → Option Str) : Str → Option Str :=
  given (asked_vars body) (positional (trim args) (asked_vars body).length) auto

theorem expand_body_eq (body args : Str) (auto : Str → Option Str) :
    expand_body body args auto
      = (let filled := (pieces body).flatMap (Piece.filled (value_of body args auto))
        let missing := Distinct.pushed [] ((names body).filter fun var => (value_of body args auto var).isNone)
        let text := replace ARGUMENTS (trim args) filled
        if !(trim args).isEmpty && (asked_vars body).isEmpty && !contains ARGUMENTS filled then
          ⟨trim_end text ++ "\n\n".toList ++ trim args, missing⟩
        else ⟨text, missing⟩) := by
  have hloop := replace_vars_eq (value_of body args auto) (fun missing var =>
    if (value_of body args auto var).isNone && !missing.contains var then missing ++ [var] else missing) [] body
  rw [foldl_missing] at hloop
  unfold value_of at hloop ⊢
  unfold expand_body
  dsimp only
  rw [hloop]

theorem value_of_asked {i : ℕ} {var : Str} (h : (asked_vars body)[i]? = some var) :
    value_of body args auto var = (positional (trim args) (asked_vars body).length)[i]? := by
  have hnodup : (asked_vars body).Nodup := (asked_in_order body).imp fun hlt heq => absurd (heq ▸ hlt) (Nat.lt_irrefl _)
  obtain ⟨hi, hget⟩ := List.getElem?_eq_some_iff.mp h
  have hnot : var ∉ AUTO_VARS := (mem_asked.mp (List.mem_of_getElem? h)).2
  have hidx : (asked_vars body).idxOf? var = some i := by
    rw [List.idxOf?_eq_some_iff]
    refine ⟨hi, by simpa using hget, ?_⟩
    intro j hj
    have hne := (List.pairwise_iff_getElem.mp hnodup) j i (hj.trans hi) hi hj
    rw [hget] at hne
    simpa using hne
  rw [value_of, given, if_neg (by simpa using hnot), hidx]
  rfl

/-- What a prompt filled in is. The first field leaves open what becomes of a `$ARGUMENTS`
that a value makes or brings along. -/
structure Fills (body args : Str) (auto : Str → Option Str) (out : Expanded) : Prop where
  /-- Every token for itself and every `$ARGUMENTS` of the body for itself. Arguments with
  nowhere to go stand after the text. -/
  text : Apart (value_of body args auto) (pieces body) →
    out.text
      = let settled := (pieces body).flatMap (Piece.settled (value_of body args auto) (trim args))
        if trim args ≠ [] ∧ asked_vars body = [] ∧ contains ARGUMENTS body = false then
          trim_end settled ++ "\n\n".toList ++ trim args
        else settled
  automatic : ∀ var ∈ AUTO_VARS, value_of body args auto var = auto var
  asks : ∀ var, var ∈ asked_vars body ↔ var ∈ names body ∧ var ∉ AUTO_VARS
  in_order : (asked_vars body).Pairwise fun a b => (names body).idxOf a < (names body).idxOf b
  /-- A word each, and the last what is left of the arguments. -/
  words : ∃ before rest : Str, trim args = before ++ rest
    ∧ split_whitespace before = (split_whitespace (trim args)).take ((asked_vars body).length - 1)
    ∧ (∀ c ∈ rest.head?, is_whitespace c = false)
    ∧ ∀ (i : ℕ) (var : Str), (asked_vars body)[i]? = some var →
        value_of body args auto var
          = ((split_whitespace (trim args)).take ((asked_vars body).length - 1) ++ if rest = [] then [] else [rest])[i]?
  missing : ∀ var, var ∈ out.missing ↔ var ∈ names body ∧ value_of body args auto var = none
  once : out.missing.Nodup

/-- Every prompt is filled in so. -/
theorem expand_body_fills (body args : Str) (auto : Str → Option Str) :
    Fills body args auto (expand_body body args auto) := by
  have hmissing : (expand_body body args auto).missing
      = Distinct.pushed [] ((names body).filter fun var => (value_of body args auto var).isNone) := by
    rw [expand_body_eq]
    dsimp only
    split_ifs
    · rfl
    · rfl
  refine ⟨fun hapart => ?_, fun var hvar => ?_, fun var => mem_asked, asked_in_order body, ?_, fun var => ?_, ?_⟩
  · rw [expand_body_eq]
    dsimp only
    rw [contains_filled hapart, replace_pieces hapart]
    by_cases hlast : trim args ≠ [] ∧ asked_vars body = [] ∧ contains ARGUMENTS body = false
    · rw [if_pos hlast, if_pos (by simp [hlast])]
    · rw [if_neg hlast, if_neg fun h => hlast (by simpa [and_assoc] using h)]
  · rw [value_of, given, if_pos (List.contains_iff_mem.mpr hvar)]
  · obtain ⟨before, rest, hsplit, hbefore, hrest, hvalues⟩ :=
      positional_from_words ((asked_vars body).length - 1) (trim args) trim_head
    refine ⟨before, rest, hsplit, hbefore, hrest, fun i var h => ?_⟩
    obtain ⟨hi, -⟩ := List.getElem?_eq_some_iff.mp h
    have hlen : (asked_vars body).length - 1 + 1 = (asked_vars body).length := by omega
    rw [value_of_asked h, positional, trim_trim, ← hvalues, hlen]
  · rw [hmissing, Distinct.mem_pushed, List.mem_filter, isNone_iff_eq_none]
    simp
  · rw [hmissing]
    exact Distinct.nodup_pushed List.nodup_nil

/-- A prompt with a value, an automatic one and all the arguments. -/
theorem expand_body_fills_fix :
    (expand_body "Fix \x7b\x7bticket\x7d\x7d on \x7b\x7b branch \x7d\x7d: $ARGUMENTS".toList " LPM-1 now ".toList fun _ => some "main".toList).text
      = "Fix LPM-1 now on main: LPM-1 now".toList :=
  ((expand_body_fills "Fix \x7b\x7bticket\x7d\x7d on \x7b\x7b branch \x7d\x7d: $ARGUMENTS".toList " LPM-1 now ".toList
    fun _ => some "main".toList).text (by decide +kernel)).trans (by decide +kernel)

/-- Arguments with nowhere to go: the text is more than the body with the tokens filled in. -/
theorem arguments_stand_after_text :
    (expand_body "Write tests.".toList "for auth".toList fun _ => none).text
      ≠ (pieces "Write tests.".toList).flatMap
          (Piece.settled (value_of "Write tests.".toList "for auth".toList fun _ => none) "for auth".toList) := by
  decide +kernel

/-- A value with `$ARGUMENTS` in it is read again. -/
example : (expand_body "Fix \x7b\x7bticket\x7d\x7d.".toList "a $ARGUMENTS".toList fun _ => none).text
    = "Fix a a $ARGUMENTS.".toList := by
  decide +kernel

end

end Lpm.Skills
