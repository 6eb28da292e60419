/-
A line read by a shell's quoting rules: single quotes, double quotes, backslashes, blanks
and operators, and what is left in a word for the shell to act on.

`Reads` is for a text that adds pieces to a word whatever stands around it, and `Spells` for
one that is whole tokens when a blank or the end follows. Both go together text by text, so
a line that is built from quoted texts is read part by part.
-/
import Lpm.Lib.RustText

set_option autoImplicit false

namespace Shell

open List

open RustText

/-! ## Tokens -/

/-- A part of a word: a character as it is, the value of a variable, or a character that the
shell acts on in another way. -/
inductive Piece where
  | char (c : Char)
  | expand (name : Str)
  | active (c : Char)
  deriving DecidableEq

abbrev Word := List Piece

inductive Token where
  | word (w : Word)
  | op (s : Str)
  deriving DecidableEq

/-- A word that is a text as it is. -/
def literal (s : Str) : Word := s.map .char

/-- Unquoted characters that a shell acts on somewhere: expansions, patterns, the home
folder, comments, braces and history. -/
def ACTIVE : List Char := ['$', '\x60', '*', '?', '[', '~', '#', '{', '!']

def OPERATORS : List Char := ['&', '|', ';', '<', '>', '(', ')', '\n']

def BLANKS : List Char := [' ', '\t']

/-- A character that is itself without quotes, wherever it stands. -/
def is_bare (c : Char) : Bool := !(['\'', '"', '\\'] ++ BLANKS ++ OPERATORS ++ ACTIVE).contains c

/-- The name behind a `$`: one digit, or letters, digits and underscores. -/
def var_name : Str → Str
  | [] => []
  | c :: s => if c.isDigit then [c] else (c :: s).takeWhile fun c => c.isAlphanum || c == '_'

/-- What a `$` is, and how many characters of the text go with it. -/
def dollar (s : Str) : Piece × ℕ :=
  if var_name s = [] then (.active '$', 0) else (.expand (var_name s), (var_name s).length)

/-! ## The reader -/

inductive Mode where
  | plain
  | single
  | double

/-- One more piece of the word, which begins here if there is none. -/
def add (w : Option Word) (p : Piece) : Option Word := some (w.getD [] ++ [p])

/-- The word that ends here. -/
def flush : Option Word → List Token
  | none => []
  | some w => [.word w]

/-- The tokens of a line, unless a quote is not closed. Of the operators only `&&` and `||`
are put together from two characters. -/
def lex : Mode → Option Word → Str → Option (List Token)
  | .plain, w, [] => some (flush w)
  | .single, _, [] => none
  | .double, _, [] => none
  | .single, w, c :: s => if c = '\'' then lex .plain w s else lex .single (add w (.char c)) s
  | .double, w, c :: s =>
    if c = '"' then lex .plain w s
    else if c = '\\' then
      if s.head?.any fun d => ['$', '\x60', '"', '\\'].contains d then
        lex .double (add w (.char (s.headD c))) (s.drop 1)
      else if s.head? = some '\n' then lex .double w (s.drop 1)
      else lex .double (add w (.char c)) s
    else if c = '$' then lex .double (add w (dollar s).1) (s.drop (dollar s).2)
    else if c = '\x60' then lex .double (add w (.active c)) s
    else lex .double (add w (.char c)) s
  | .plain, w, c :: s =>
    if c = '\'' then lex .single (some (w.getD [])) s
    else if c = '"' then lex .double (some (w.getD [])) s
    else if c = '\\' then
      if s.head? = some '\n' then lex .plain w (s.drop 1)
      else lex .plain (add w (.char (s.headD c))) (s.drop 1)
    else if BLANKS.contains c then (lex .plain none s).map (flush w ++ ·)
    else if OPERATORS.contains c then
      -- `&&` and `||` are one operator
      if (c = '&' ∨ c = '|') ∧ s.head? = some c then
        (lex .plain none (s.drop 1)).map (flush w ++ .op [c, c] :: ·)
      else (lex .plain none s).map (flush w ++ .op [c] :: ·)
    else if c = '$' then lex .plain (add w (dollar s).1) (s.drop (dollar s).2)
    else if ACTIVE.contains c then lex .plain (add w (.active c)) s
    else lex .plain (add w (.char c)) s
termination_by _ _ s => s.length
decreasing_by
  all_goals
    simp only [length_cons, length_drop]
    omega

/-- A line split into tokens. -/
def tokens (line : Str) : Option (List Token) := lex .plain none line

/-- A text in single quotes, with every quote in it closed, escaped and opened again. -/
def quote (s : Str) : Str := '\'' :: s.flatMap (fun c => if c = '\'' then ['\'', '\\', '\'', '\''] else [c]) ++ ['\'']

/-! ## Texts that add to a word -/

/-- The text adds pieces to the word it stands in. -/
def Reads (t : Str) (w : Word) : Prop :=
  ∀ cur rest, lex .plain cur (t ++ rest) = lex .plain (some (cur.getD [] ++ w)) rest

section
variable {s t u rest : Str} {v w : Word} {cur : Option Word} {c : Char} {ts us : List Token}

theorem Reads.append (h : Reads t v) (h' : Reads u w) : Reads (t ++ u) (v ++ w) := by
  intro cur rest
  rw [append_assoc, h, h', Option.getD_some, append_assoc]

theorem lex_single (w : Word) (s rest : Str) :
    lex .single (some w) (s.flatMap (fun c => if c = '\'' then ['\'', '\\', '\'', '\''] else [c]) ++ '\'' :: rest)
      = lex .plain (some (w ++ literal s)) rest := by
  induction s generalizing w with
  | nil =>
    rw [flatMap_nil, nil_append, lex, if_pos rfl, literal, map_nil, append_nil]
  | cons c s ih =>
    have hword : w ++ literal (c :: s) = (w ++ [.char c]) ++ literal s := by simp [literal]
    rw [flatMap_cons, hword, ← ih]
    by_cases hc : c = '\''
    -- out of the quotes, an escaped quote, and in again
    · rw [if_pos hc, hc]
      simp [lex, add]
    · rw [if_neg hc, singleton_append, cons_append, lex, if_neg hc]
      rfl

/-- A quoted text is one word, whatever it holds. -/
theorem reads_quote (s : Str) : Reads (quote s) (literal s) := by
  intro cur rest
  have htext : quote s ++ rest
      = '\'' :: (s.flatMap (fun c => if c = '\'' then ['\'', '\\', '\'', '\''] else [c]) ++ '\'' :: rest) := by
    simp [quote]
  rw [htext, lex, if_pos rfl]
  exact lex_single _ s rest

/-- A text without a character that means anything is itself. -/
theorem reads_bare (hne : s ≠ []) (h : ∀ c ∈ s, is_bare c = true) : Reads s (literal s) := by
  have hone : ∀ c, is_bare c = true → Reads [c] [.char c] := by
    intro c hc cur rest
    rw [is_bare, Bool.not_eq_true', contains_eq_mem, decide_eq_false_iff_not] at hc
    simp only [mem_append, not_or, mem_cons, not_mem_nil, or_false] at hc
    obtain ⟨⟨⟨⟨h1, h2, h3⟩, hblank⟩, hop⟩, hactive⟩ := hc
    have hdollar : c ≠ '$' := fun heq => hactive (heq ▸ mem_cons_self)
    rw [singleton_append, lex, if_neg h1, if_neg h2, if_neg h3, if_neg (by simpa using hblank),
      if_neg (by simpa using hop), if_neg hdollar, if_neg (by simpa using hactive)]
    rfl
  induction s with
  | nil => exact absurd rfl hne
  | cons c s ih =>
    have hc := hone c (h c mem_cons_self)
    by_cases hs : s = []
    · rw [hs]
      exact hc
    · exact hc.append (ih hs fun d hd => h d (mem_cons_of_mem _ hd))

/-- A variable in double quotes. -/
theorem reads_variable {name : Str} (hname : var_name (name ++ ['"']) = name) (hne : name ≠ [])
    (hrest : ∀ rest, var_name (name ++ '"' :: rest) = var_name (name ++ ['"'])) :
    Reads ('"' :: '$' :: name ++ ['"']) [.expand name] := by
  intro cur rest
  have hdollar : dollar (name ++ '"' :: rest) = (.expand name, name.length) := by
    rw [dollar, hrest, hname, if_neg hne]
  have htext : '"' :: '$' :: name ++ ['"'] ++ rest = '"' :: '$' :: (name ++ '"' :: rest) := by simp
  rw [htext, lex, if_neg (by decide), if_pos rfl, lex, if_neg (by decide), if_neg (by decide), if_pos rfl, hdollar,
    drop_left, lex, if_pos rfl]
  rfl

/-! ## Texts that are whole tokens -/

/-- The text is these tokens where a blank follows or nothing. -/
structure Spells (t : Str) (ts : List Token) : Prop where
  before : ∀ rest, lex .plain none (t ++ ' ' :: rest) = (lex .plain none rest).map (ts ++ ·)
  last : tokens t = some ts

theorem lex_blank (cur : Option Word) (rest : Str) :
    lex .plain cur (' ' :: rest) = (lex .plain none rest).map (flush cur ++ ·) := by
  rw [lex, if_neg (by decide), if_neg (by decide), if_neg (by decide), if_pos (by decide)]

theorem Reads.spells (h : Reads t w) : Spells t [.word w] where
  before rest := by
    rw [h, lex_blank]
    rfl
  last := by
    have hlast := h none []
    rw [append_nil] at hlast
    rw [tokens, hlast, lex]
    rfl

theorem spells_and : Spells ['&', '&'] [.op ['&', '&']] where
  before rest := by
    simp [lex, flush, BLANKS, OPERATORS]
  last := by decide +kernel

/-- Two texts with a blank between them. -/
theorem Spells.append (h : Spells t ts) (h' : Spells u us) : Spells (t ++ ' ' :: u) (ts ++ us) where
  before rest := by
    rw [append_assoc, cons_append, h.before, h'.before, Option.map_map]
    congr 1
    funext more
    exact (append_assoc _ _ _).symm
  last := by
    have hlast := h'.last
    rw [tokens] at hlast
    rw [tokens, h.before, hlast]
    rfl

/-- Whatever follows a text and a blank is read by itself. -/
theorem Spells.then (h : Spells t ts) (rest : Str) : tokens (t ++ ' ' :: rest) = (tokens rest).map (ts ++ ·) :=
  h.before rest

/-- Words with a blank between each two of them. -/
theorem spells_join {ts : List Str} {ws : List Word} (hne : ts ≠ []) (h : List.Forall₂ Reads ts ws) :
    Spells (List.intercalate [' '] ts) (ws.map .word) := by
  induction h with
  | nil => exact absurd rfl hne
  | @cons t w ts ws hread hrest ih =>
    cases ts with
    | nil =>
      cases hrest
      simpa using hread.spells
    | cons u ts => exact hread.spells.append (ih (cons_ne_nil _ _))

end

end Shell
