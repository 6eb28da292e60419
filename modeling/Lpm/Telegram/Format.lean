/-
An agent's Markdown as Telegram messages: `telegramfmt.rs`.

The scanners of inline spans write to an output that they share. Here each says what it writes
as a `Turn`: text, or text around a part that is rendered in turn, and where the scan goes on.
Which characters are alphanumeric is Unicode's to say, and is taken as given.
-/
import Lpm.Lib.Chunks
import Lpm.Lib.Markup
import Lpm.Lib.Patterns

set_option autoImplicit false

namespace Lpm.Telegram.Format

open List

open RustText Markup Chunks

/-! ## Inline spans -/

/-- Where a span sits, which decides what Telegram lets it contain. -/
inductive Ctx where
  | top
  /-- Inside bold, italic or strikethrough: no code. -/
  | emphasis
  /-- Inside a link: no code, no other link. -/
  | link
  /-- Inside a quote: no code, no link. -/
  | quote
  deriving DecidableEq

/-- What a scanner writes, and where it stops. -/
inductive Turn where
  | out (text : Str) (next : ℕ)
  | span (before inner : Str) (ctx : Ctx) (after : Str) (next : ℕ)

def Turn.next : Turn → ℕ
  | .out _ next => next
  | .span _ _ _ _ next => next

def is_ascii_punctuation (c : Char) : Bool :=
  let n := c.toNat
  (33 ≤ n && n ≤ 47) || (58 ≤ n && n ≤ 64) || (91 ≤ n && n ≤ 96) || (123 ≤ n && n ≤ 126)

def run (cs : Str) (i : ℕ) (ch : Char) : ℕ := ((cs.drop i).takeWhile fun x => x = ch).length

theorem run_pos {cs : Str} {i : ℕ} {ch : Char} (h : cs[i]? = some ch) : 0 < run cs i ch := by
  obtain ⟨hi, hget⟩ := List.getElem?_eq_some_iff.mp h
  rw [run, drop_eq_getElem_cons hi, takeWhile_cons_of_pos (by rw [hget]; simp)]
  exact Nat.succ_pos _

theorem run_le (cs : Str) (i : ℕ) (ch : Char) : i + run cs i ch ≤ max i cs.length := by
  have hle : ((cs.drop i).takeWhile fun x => x = ch).length ≤ (cs.drop i).length := (takeWhile_sublist _).length_le
  rw [length_drop] at hle
  rw [run]
  omega

def code_close (cs : Str) (j n : ℕ) : Option ℕ :=
  match _h : cs[j]? with
  | none => none
  | some ch =>
    if _hch : ch = '\x60' then
      let m := run cs j '\x60'
      if m = n then some j else code_close cs (j + m) n
    else code_close cs (j + 1) n
termination_by cs.length - j
decreasing_by
  · have hpos := run_pos (_hch ▸ _h)
    have hlt := (List.getElem?_eq_some_iff.mp _h).1
    omega
  · have hlt := (List.getElem?_eq_some_iff.mp _h).1
    omega

theorem code_close_none {cs : Str} {j : ℕ} (h : cs[j]? = none) (n : ℕ) : code_close cs j n = none := by
  rw [code_close]
  split
  · rfl
  next heq =>
    exact nomatch h.symm.trans heq

theorem code_close_some {cs : Str} {j : ℕ} {ch : Char} (h : cs[j]? = some ch) (n : ℕ) :
    code_close cs j n
      = if ch = '\x60' then
          if run cs j '\x60' = n then some j else code_close cs (j + run cs j '\x60') n
        else code_close cs (j + 1) n := by
  rw [code_close]
  split
  next heq =>
    exact nomatch h.symm.trans heq
  next ch' heq =>
    obtain rfl := Option.some.inj (h.symm.trans heq)
    rfl

theorem code_close_le {cs : Str} {j n k : ℕ} (h : code_close cs j n = some k) :
    j ≤ k ∧ k < cs.length ∧ k + n ≤ cs.length := by
  induction hm : cs.length - j using Nat.strong_induction_on generalizing j with
  | h m ih =>
    rcases hget : cs[j]? with _ | ch
    · rw [code_close_none hget] at h
      exact nomatch h
    · have hlt := (List.getElem?_eq_some_iff.mp hget).1
      rw [code_close_some hget] at h
      split_ifs at h with htick hrun
      · obtain rfl := Option.some.inj h
        have hle := run_le cs j '\x60'
        exact ⟨le_rfl, hlt, by omega⟩
      · have hpos := run_pos (htick ▸ hget)
        have hnext := ih (cs.length - (j + run cs j '\x60')) (by omega) h rfl
        omega
      · have hnext := ih (cs.length - (j + 1)) (by omega) h rfl
        omega

def code_span (cs : Str) (i : ℕ) (ctx : Ctx) : Turn :=
  let n := run cs i '\x60'
  match code_close cs (i + n) n with
  | none => .out (List.replicate n '\x60') (i + n)
  | some close =>
    let code := escape (trim ((cs.take close).drop (i + n)))
    if ctx = .top then .out ("<code>".toList ++ code ++ "</code>".toList) (close + n) else .out code (close + n)

/-- Where the label of a link ends. -/
def label_end (cs : Str) (j depth : ℕ) : Option ℕ :=
  match _h : cs[j]? with
  | none => none
  | some ch =>
    if ch = '\\' then label_end cs (j + 2) depth
    else if ch = '[' then label_end cs (j + 1) (depth + 1)
    else if ch = ']' then if depth = 0 then some j else label_end cs (j + 1) (depth - 1)
    else label_end cs (j + 1) depth
termination_by cs.length - j
decreasing_by
  all_goals
    have hlt := (List.getElem?_eq_some_iff.mp _h).1
    omega

/-- Where the url of a link ends. -/
def url_end (cs : Str) (j depth : ℕ) : Option ℕ :=
  match _h : cs[j]? with
  | none => none
  | some ch =>
    if ch = '(' then url_end cs (j + 1) (depth + 1)
    else if ch = ')' then if depth = 0 then some j else url_end cs (j + 1) (depth - 1)
    else url_end cs (j + 1) depth
termination_by cs.length - j
decreasing_by
  all_goals
    have hlt := (List.getElem?_eq_some_iff.mp _h).1
    omega

/-- `[label](url)` starting at `i`: where the label and the url end. -/
def link_parts (cs : Str) (i : ℕ) : Option (ℕ × ℕ) :=
  (label_end cs (i + 1) 0).bind fun label =>
    if cs[label + 1]? ≠ some '(' then none else (url_end cs (label + 2) 0).map fun url => (label, url)

/-- An address with something behind its scheme, by its characters: a scheme has one byte for
each of its own. -/
def linkable (url : Str) : Bool :=
  ["https://".toList, "http://".toList, "tg://".toList, "mailto:".toList].any fun scheme =>
    scheme.length < url.length && scheme.isPrefixOf (to_ascii_lowercase url)

def trim_angles (s : Str) : Str :=
  let angle := fun c : Char => decide (c = '<' ∨ c = '>')
  ((s.dropWhile angle).reverse.dropWhile angle).reverse

def link (cs : Str) (i : ℕ) (ctx : Ctx) : Turn :=
  match link_parts cs i with
  | none => .out "[".toList (i + 1)
  | some (label_end, url_end) =>
    let label := (cs.take label_end).drop (i + 1)
    let target := (cs.take url_end).drop (label_end + 2)
    let url := trim_angles ((split_whitespace target).head?.getD [])
    if linkable url && (ctx = .top || ctx = .emphasis) then
      .span ("<a href=\"".toList ++ escape_attr url ++ "\">".toList) label .link "</a>".toList (url_end + 1)
    else
      .span [] label ctx (if url ≠ [] ∧ label ≠ url then " (".toList ++ escape url ++ ")".toList else []) (url_end + 1)

def autolink (cs : Str) (i : ℕ) (ctx : Ctx) : Turn :=
  match ((cs.drop i).findIdx? fun ch => ch = '>').map (i + ·) with
  | none => .out "&lt;".toList (i + 1)
  | some close =>
    let url := (cs.take close).drop (i + 1)
    if linkable url && !url.any is_whitespace then
      if ctx = .top || ctx = .emphasis then
        .out ("<a href=\"".toList ++ escape_attr url ++ "\">".toList ++ escape url ++ "</a>".toList) (close + 1)
      else .out (escape url) (close + 1)
    else .out "&lt;".toList (i + 1)

variable (is_alphanumeric : Char → Bool)

def alphanumeric_before (cs : Str) (i : ℕ) : Bool := 0 < i && (cs[i - 1]?).any is_alphanumeric

/-- An address without the punctuation it ends in. -/
def trim_url (cs : Str) (i : ℕ) : ℕ → ℕ
  | 0 => 0
  | e + 1 =>
    if e + 1 ≤ i then e + 1
    else
      let last := cs[e]?
      let opens := ((cs.take (e + 1)).drop i).count '('
      let closes := ((cs.take (e + 1)).drop i).count ')'
      if (last.any fun ch => ch ∈ ['.', ',', ';', ':', '!', '?', '"', '\'', '*', '_']) || (last = some ')' && opens < closes)
      then trim_url cs i e else e + 1

/-- A bare `http(s)://` address starting at `i`. -/
def bare_url (cs : Str) (i : ℕ) : Option ℕ :=
  if alphanumeric_before is_alphanumeric cs i then none
  else
    let rest := to_ascii_lowercase ((cs.drop i).take 8)
    if !"https://".toList.isPrefixOf rest && !"http://".toList.isPrefixOf rest then none
    else some (trim_url cs i (i + ((cs.drop i).takeWhile fun ch => !is_whitespace ch && ch ≠ '<').length))

def emphasis_close (cs : Str) (start : ℕ) (ch : Char) (n j : ℕ) : Option ℕ :=
  match _h : cs[j]? with
  | none => none
  | some x =>
    if _hcode : x = '\x60' then
      let m := run cs j '\x60'
      match _hclose : code_close cs (j + m) m with
      | some close => emphasis_close cs start ch n (close + m)
      | none => emphasis_close cs start ch n (j + m)
    else if _hch : x ≠ ch then emphasis_close cs start ch n (j + 1)
    else
      let m := run cs j ch
      if m = n ∧ start < j ∧ !(cs[j - 1]?).any is_whitespace ∧ (ch ≠ '_' ∨ !(cs[j + m]?).any is_alphanumeric) then some j
      else emphasis_close cs start ch n (j + m)
termination_by cs.length - j
decreasing_by
  · have hpos := run_pos (_hcode ▸ _h)
    have hle := (code_close_le _hclose).1
    have hlt := (List.getElem?_eq_some_iff.mp _h).1
    omega
  · have hpos := run_pos (_hcode ▸ _h)
    have hlt := (List.getElem?_eq_some_iff.mp _h).1
    omega
  · have hlt := (List.getElem?_eq_some_iff.mp _h).1
    omega
  · have hpos := run_pos (not_not.mp _hch ▸ _h)
    have hlt := (List.getElem?_eq_some_iff.mp _h).1
    omega

/-- `*x*`, `_x_`, `**x**`, `__x__`, `***x***` and `~~x~~`. A lone `~` stays literal. -/
def emphasis (cs : Str) (i : ℕ) (ch : Char) (ctx : Ctx) : Turn :=
  let n := run cs i ch
  let literal : Turn := .out (escape (List.replicate n ch)) (i + n)
  if 3 < n ∨ (ch = '~' ∧ n ≠ 2) then literal
  else
    let opens := (cs[i + n]?).any (fun x => !is_whitespace x) && (ch ≠ '_' || i = 0 || !alphanumeric_before is_alphanumeric cs i)
    match if opens then emphasis_close is_alphanumeric cs (i + n) ch n (i + n) else none with
    | none => literal
    | some close =>
      let tags : Str × Str :=
        if ch = '~' then ("<s>".toList, "</s>".toList)
        else if n = 1 then ("<i>".toList, "</i>".toList)
        else if n = 2 then ("<b>".toList, "</b>".toList)
        else ("<b><i>".toList, "</i></b>".toList)
      let inner := if ctx = .top then .emphasis else ctx
      .span tags.1 ((cs.take close).drop (i + n)) inner tags.2 (close + n)

/-- What is written at a place, and from where the scan goes on. -/
def turn (cs : Str) (ctx : Ctx) (i : ℕ) (ch : Char) : Turn :=
  if ch = '\\' ∧ (cs[i + 1]?).any is_ascii_punctuation then .out (((cs[i + 1]?).map push_escaped).getD []) (i + 2)
  else if ch = '\x60' then code_span cs i ctx
  else if ch = '[' then link cs i ctx
  else if ch = '<' then autolink cs i ctx
  else if ch = '*' ∨ ch = '_' ∨ ch = '~' then emphasis is_alphanumeric cs i ch ctx
  else
    match bare_url is_alphanumeric cs i with
    | some close => .out (escape ((cs.take close).drop i)) close
    | none => .out (push_escaped ch) (i + 1)

/-! ### Where the scanners stop -/

section
variable {is_alphanumeric} {cs : Str} {i j n k depth start : ℕ} {ch : Char} {ctx : Ctx}

theorem label_end_some (h : cs[j]? = some ch) (depth : ℕ) :
    label_end cs j depth
      = if ch = '\\' then label_end cs (j + 2) depth
        else if ch = '[' then label_end cs (j + 1) (depth + 1)
        else if ch = ']' then if depth = 0 then some j else label_end cs (j + 1) (depth - 1)
        else label_end cs (j + 1) depth := by
  rw [label_end]
  split
  next heq =>
    exact nomatch h.symm.trans heq
  next ch' heq =>
    obtain rfl := Option.some.inj (h.symm.trans heq)
    rfl

theorem label_end_none (h : cs[j]? = none) (depth : ℕ) : label_end cs j depth = none := by
  rw [label_end]
  split
  · rfl
  next heq =>
    exact nomatch h.symm.trans heq

theorem label_end_le (h : label_end cs j depth = some k) : j ≤ k ∧ k < cs.length := by
  induction hm : cs.length - j using Nat.strong_induction_on generalizing j depth with
  | h m ih =>
    rcases hget : cs[j]? with _ | ch
    · rw [label_end_none hget] at h
      exact nomatch h
    · have hlt := (List.getElem?_eq_some_iff.mp hget).1
      have hlater : ∀ j' depth', j < j' → label_end cs j' depth' = some k → j ≤ k ∧ k < cs.length := by
        intro j' depth' hj h'
        have hnext := ih (cs.length - j') (by omega) h' rfl
        omega
      rw [label_end_some hget] at h
      split_ifs at h
      · exact hlater _ _ (by omega) h
      · exact hlater _ _ (by omega) h
      · obtain rfl := Option.some.inj h
        exact ⟨le_rfl, hlt⟩
      · exact hlater _ _ (by omega) h
      · exact hlater _ _ (by omega) h

theorem url_end_some (h : cs[j]? = some ch) (depth : ℕ) :
    url_end cs j depth
      = if ch = '(' then url_end cs (j + 1) (depth + 1)
        else if ch = ')' then if depth = 0 then some j else url_end cs (j + 1) (depth - 1)
        else url_end cs (j + 1) depth := by
  rw [url_end]
  split
  next heq =>
    exact nomatch h.symm.trans heq
  next ch' heq =>
    obtain rfl := Option.some.inj (h.symm.trans heq)
    rfl

theorem url_end_none (h : cs[j]? = none) (depth : ℕ) : url_end cs j depth = none := by
  rw [url_end]
  split
  · rfl
  next heq =>
    exact nomatch h.symm.trans heq

theorem url_end_le (h : url_end cs j depth = some k) : j ≤ k ∧ k < cs.length := by
  induction hm : cs.length - j using Nat.strong_induction_on generalizing j depth with
  | h m ih =>
    rcases hget : cs[j]? with _ | ch
    · rw [url_end_none hget] at h
      exact nomatch h
    · have hlt := (List.getElem?_eq_some_iff.mp hget).1
      have hlater : ∀ depth', url_end cs (j + 1) depth' = some k → j ≤ k ∧ k < cs.length := by
        intro depth' h'
        have hnext := ih (cs.length - (j + 1)) (by omega) h' rfl
        omega
      rw [url_end_some hget] at h
      split_ifs at h
      · exact hlater _ h
      · obtain rfl := Option.some.inj h
        exact ⟨le_rfl, hlt⟩
      · exact hlater _ h
      · exact hlater _ h

theorem link_parts_le {label url : ℕ} (h : link_parts cs i = some (label, url)) :
    i + 1 ≤ label ∧ label + 2 ≤ url ∧ url < cs.length := by
  obtain ⟨label', hlabel, h⟩ := Option.bind_eq_some_iff.mp h
  split_ifs at h
  obtain ⟨url', hurl, heq⟩ := Option.map_eq_some_iff.mp h
  cases heq
  exact ⟨(label_end_le hlabel).1, (url_end_le hurl).1, (url_end_le hurl).2⟩

theorem emphasis_close_none (h : cs[j]? = none) : emphasis_close is_alphanumeric cs start ch n j = none := by
  rw [emphasis_close]
  split
  · rfl
  next heq =>
    exact nomatch h.symm.trans heq

/-- A run that closes stands behind where the scan began. -/
theorem emphasis_close_le (h : emphasis_close is_alphanumeric cs start ch n j = some k) :
    start < k ∧ k + n ≤ cs.length := by
  induction hm : cs.length - j using Nat.strong_induction_on generalizing j with
  | h m ih =>
    rcases hget : cs[j]? with _ | x
    · rw [emphasis_close_none hget] at h
      exact nomatch h
    · have hlt := (List.getElem?_eq_some_iff.mp hget).1
      have hlater : ∀ j', j < j' → emphasis_close is_alphanumeric cs start ch n j' = some k → start < k ∧ k + n ≤ cs.length :=
        fun j' hj h' => ih (cs.length - j') (by omega) h' rfl
      rw [emphasis_close] at h
      split at h
      · exact nomatch h
      next x' heq =>
        obtain rfl := Option.some.inj (hget.symm.trans heq)
        dsimp only at h
        split_ifs at h with htick hch hclose
        · have hpos := run_pos (htick ▸ hget)
          split at h
          next close hclosed =>
            have hle := (code_close_le hclosed).1
            exact hlater _ (by omega) h
          · exact hlater _ (by omega) h
        · exact hlater _ (by omega) h
        · obtain rfl := Option.some.inj h
          have hrun := run_le cs j ch
          exact ⟨hclose.2.1, by omega⟩
        · have hpos := run_pos (not_not.mp hch ▸ hget)
          exact hlater _ (by omega) h

theorem letter_of_toLower (h : ch.toLower = 'h') : ch = 'h' ∨ ch = 'H' := by
  change dite _ _ _ = 'h' at h
  split_ifs at h with hupper
  · right
    have hval := congrArg Char.val h
    apply Char.ext
    have hnum : ch.val + 32 = 104 := hval
    have hback : ch.val = 104 - 32 := by rw [← hnum]; simp
    exact hback
  · exact .inl h

theorem trim_url_le {e : ℕ} : trim_url cs i e ≤ e := by
  induction e with
  | zero => exact le_rfl
  | succ e ih =>
    rw [trim_url]
    dsimp only
    split_ifs
    · exact le_rfl
    · omega
    · exact le_rfl

theorem lt_trim_url {e : ℕ} (hget : cs[i]? = some ch) (hch : ch = 'h' ∨ ch = 'H') (he : i < e) : i < trim_url cs i e := by
  induction e with
  | zero => omega
  | succ e ih =>
    rw [trim_url, if_neg (by omega)]
    dsimp only
    by_cases hie : i < e
    · split_ifs
      · exact ih hie
      · exact he
    · obtain rfl : e = i := by omega
      rw [hget]
      rcases hch with rfl | rfl
      · exact he
      · exact he

theorem bare_url_le (hget : cs[i]? = some ch) (h : bare_url is_alphanumeric cs i = some k) : i < k ∧ k ≤ cs.length := by
  have hlt := (List.getElem?_eq_some_iff.mp hget).1
  have hdrop : cs.drop i = ch :: cs.drop (i + 1) := by
    rw [List.drop_eq_getElem_cons hlt]
    congr 1
    exact Option.some.inj ((List.getElem?_eq_getElem hlt).symm.trans hget)
  rw [bare_url] at h
  dsimp only at h
  split_ifs at h with hbefore hscheme
  obtain rfl := Option.some.inj h
  -- an address begins with the letter of its scheme
  have hch : ch = 'h' ∨ ch = 'H' := by
    apply letter_of_toLower
    by_contra hne
    refine hscheme ?_
    have hhead : (to_ascii_lowercase ((cs.drop i).take 8)).head? = some ch.toLower := by rw [hdrop]; rfl
    have hnone : ∀ scheme : Str, scheme.head? = some 'h' →
        scheme.isPrefixOf (to_ascii_lowercase ((cs.drop i).take 8)) = false := by
      intro scheme hscheme
      rw [Bool.eq_false_iff]
      intro hpre
      obtain ⟨rest, hrest⟩ := List.isPrefixOf_iff_prefix.mp hpre
      rw [← hrest] at hhead
      cases scheme with
      | nil => exact nomatch hscheme
      | cons a scheme =>
        obtain rfl := Option.some.inj hscheme
        exact hne (Option.some.inj hhead).symm
    rw [hnone _ rfl, hnone _ rfl]
    rfl
  have hone : 0 < ((cs.drop i).takeWhile fun ch => !is_whitespace ch && ch ≠ '<').length := by
    rw [hdrop, List.takeWhile_cons_of_pos]
    · exact Nat.succ_pos _
    · rcases hch with rfl | rfl
      · decide
      · decide
  have hall : ((cs.drop i).takeWhile fun ch => !is_whitespace ch && ch ≠ '<').length ≤ (cs.drop i).length :=
    (List.takeWhile_sublist _).length_le
  rw [List.length_drop] at hall
  have hle := @trim_url_le cs i (i + ((cs.drop i).takeWhile fun ch => !is_whitespace ch && ch ≠ '<').length)
  exact ⟨lt_trim_url hget hch (by omega), by omega⟩

/-- A part of the text. -/
theorem length_part (cs : Str) (i j : ℕ) : ((cs.take j).drop i).length = min j cs.length - i := by
  rw [List.length_drop, List.length_take]

/-- Each turn goes on, within the text, and a part that it renders is shorter. -/
structure Turn.Goes (cs : Str) (i : ℕ) (t : Turn) : Prop where
  lt : i < t.next
  le : t.next ≤ cs.length
  shorter : ∀ before inner ctx after next, t = .span before inner ctx after next → inner.length < cs.length

theorem Turn.Goes.out {text : Str} (hlt : i < n) (hle : n ≤ cs.length) : Turn.Goes cs i (.out text n) :=
  ⟨hlt, hle, nofun⟩

theorem Turn.Goes.span {before after : Str} (hlt : i < n) (hle : n ≤ cs.length) {start close : ℕ} (hstart : 0 < start)
    (hclose : close < cs.length) :
    Turn.Goes cs i (.span before ((cs.take close).drop start) ctx after n) := by
  refine ⟨hlt, hle, ?_⟩
  intro before' inner ctx' after' next heq
  obtain ⟨-, rfl, -⟩ := Turn.span.inj heq
  rw [length_part]
  omega

theorem code_span_goes (hget : cs[i]? = some '\x60') (ctx : Ctx) : (code_span cs i ctx).Goes cs i := by
  have hlt := (List.getElem?_eq_some_iff.mp hget).1
  have hpos := run_pos hget
  have hrun := run_le cs i '\x60'
  unfold code_span
  dsimp only
  split
  · exact .out (by omega) (by omega)
  next close hclose =>
    have hle := code_close_le hclose
    split_ifs
    · exact .out (by omega) hle.2.2
    · exact .out (by omega) hle.2.2

variable (hget : cs[i]? = some ch)
include hget

variable (ctx : Ctx)

theorem link_goes : (link cs i ctx).Goes cs i := by
  have hlt := (List.getElem?_eq_some_iff.mp hget).1
  unfold link
  split
  · exact .out (by omega) (by omega)
  next label url hparts =>
    obtain ⟨hlabel, hurl, hend⟩ := link_parts_le hparts
    dsimp only
    split_ifs
    · exact .span (by omega) hend (by omega) (by omega)
    · exact .span (by omega) hend (by omega) (by omega)
    · exact .span (by omega) hend (by omega) (by omega)

theorem autolink_goes : (autolink cs i ctx).Goes cs i := by
  have hlt := (List.getElem?_eq_some_iff.mp hget).1
  unfold autolink
  split
  · exact .out (by omega) (by omega)
  next close hclose =>
    obtain ⟨j, hj, rfl⟩ := Option.map_eq_some_iff.mp hclose
    have hjlt := (List.findIdx?_eq_some_iff_getElem.mp hj).1
    rw [List.length_drop] at hjlt
    dsimp only
    split_ifs
    · exact .out (by omega) (by omega)
    · exact .out (by omega) (by omega)
    · exact .out (by omega) (by omega)

theorem emphasis_goes : (emphasis is_alphanumeric cs i ch ctx).Goes cs i := by
  have hlt := (List.getElem?_eq_some_iff.mp hget).1
  have hpos := run_pos hget
  have hrun := run_le cs i ch
  unfold emphasis
  dsimp only
  by_cases hliteral : 3 < run cs i ch ∨ (ch = '~' ∧ run cs i ch ≠ 2)
  · rw [if_pos hliteral]
    exact .out (by omega) (by omega)
  · rw [if_neg hliteral]
    split
    · exact .out (by omega) (by omega)
    next close hclose =>
      split_ifs at hclose
      have hle := emphasis_close_le hclose
      exact .span (by omega) hle.2 (by omega) (by omega)

theorem turn_goes : (turn is_alphanumeric cs ctx i ch).Goes cs i := by
  have hlt := (List.getElem?_eq_some_iff.mp hget).1
  unfold turn
  split_ifs with hescape htick hlink hauto hemphasis
  · refine .out (by omega) ?_
    rcases hnext : cs[i + 1]? with _ | x
    · rw [hnext] at hescape
      exact absurd hescape.2 Bool.false_ne_true
    · have hlt' := (List.getElem?_eq_some_iff.mp hnext).1
      omega
  · exact code_span_goes (htick ▸ hget) ctx
  · exact link_goes hget ctx
  · exact autolink_goes hget ctx
  · exact emphasis_goes hget ctx
  · split
    next close hclose =>
      obtain ⟨h1, h2⟩ := bare_url_le hget hclose
      exact .out h1 h2
    · exact .out (by omega) (by omega)

end

/-! ## Rendering -/

/-- The scan from a place on. What it goes on with is shorter or further on. -/
def render (cs : Str) (ctx : Ctx) (i : ℕ) : Str :=
  match _h : cs[i]? with
  | none => []
  | some ch =>
    match _ht : turn is_alphanumeric cs ctx i ch with
    | .out text next => text ++ render cs ctx next
    | .span before inner ctx' after next => before ++ render inner ctx' 0 ++ after ++ render cs ctx next
termination_by (cs.length, cs.length - i)
decreasing_by
  · have hgoes := @turn_goes is_alphanumeric cs i ch _h ctx
    rw [_ht] at hgoes
    have hlt : i < next := hgoes.lt
    have hi := (List.getElem?_eq_some_iff.mp _h).1
    exact Prod.Lex.right _ (by omega)
  · have hgoes := @turn_goes is_alphanumeric cs i ch _h ctx
    exact Prod.Lex.left _ _ (hgoes.shorter _ _ _ _ _ _ht)
  · have hgoes := @turn_goes is_alphanumeric cs i ch _h ctx
    rw [_ht] at hgoes
    have hlt : i < next := hgoes.lt
    have hi := (List.getElem?_eq_some_iff.mp _h).1
    exact Prod.Lex.right _ (by omega)

def inline_ (text : Str) (ctx : Ctx) : Str := render is_alphanumeric text ctx 0

/-! ## Blocks -/

structure Block where
  html : Str
  plain : Str

def Block.text (plain : Str) : Block := ⟨escape plain, plain⟩

def Block.is_blank (b : Block) : Bool := (trim b.plain).isEmpty

variable (line : Str)

/-- The opening of a fenced code block: its fence and language. -/
def fence_open : Option (Str × Str) :=
  let mark := fun c : Char => decide (c = '\x60' ∨ c = '~')
  (["\x60\x60\x60".toList, "~~~".toList].find? fun f => f.isPrefixOf line).map fun fence =>
    (fence, trim (((((line.drop 3).dropWhile mark).reverse).dropWhile mark).reverse))

/-- A row begins with a bar and ends with another one. -/
def is_table_row : Bool :=
  let line := trim_end line
  1 < line.length && line.head? = some '|' && line.getLast? = some '|'

def quoted : Option Str :=
  match line with
  | '>' :: ' ' :: rest => some rest
  | '>' :: rest => some rest
  | _ => none

def heading : Option Str :=
  let hashes := (line.takeWhile fun c => c = '#').length
  if ¬(1 ≤ hashes ∧ hashes ≤ 6) then none
  else
    let rest := line.drop hashes
    if rest.head? ≠ some ' ' ∧ rest.head? ≠ some '\t' then none
    else some (trim_end (((trim rest).reverse.dropWhile fun c => c = '#').reverse))

def is_rule : Bool :=
  let compact := line.filter fun c => !is_whitespace c
  3 ≤ compact.length && ['-', '*', '_'].any fun m => compact.all fun c => c = m

def list_item : Option Str :=
  (["- ".toList, "* ".toList, "+ ".toList].findSome? fun m => strip_prefix m line).map fun rest =>
    let rest := trim_start rest
    match strip_prefix "[ ] ".toList rest with
    | some task => "☐ ".toList ++ task
    | none =>
      match (rest |> strip_prefix "[x] ".toList).or (rest |> strip_prefix "[X] ".toList) with
      | some task => "☑ ".toList ++ task
      | none => rest

def line_block : Block :=
  let trimmed := trim_start line
  let indent := line.take (line.length - trimmed.length)
  let html :=
    match heading trimmed with
    | some text => "<b>".toList ++ inline_ is_alphanumeric text .emphasis ++ "</b>".toList
    | none =>
      if is_rule trimmed then "──────────".toList
      else
        match list_item trimmed with
        | some item => indent ++ "• ".toList ++ inline_ is_alphanumeric item .top
        | none => inline_ is_alphanumeric line .top
  ⟨html, line⟩

def char_chunks (max : ℕ) (line : Str) : List Str :=
  if line.isEmpty then [[]] else chunks (Nat.max max 1) line

/-- A line is put to the run so far, or begins the next one. -/
def piece_step (max : ℕ) (state : List Str × Str) (line : Str) : List Str × Str :=
  let (out, current) := state
  let needed := current.length + line.length + 1
  let (out, current) := if current ≠ [] ∧ needed > max then (out ++ [current], []) else (out, current)
  let current := if current ≠ [] then current ++ ['\n'] else current
  (out, current ++ line)

/-- Lines joined into runs of at most `max` characters; a longer line is cut. -/
def pieces (lines : List Str) (max : ℕ) : List Str :=
  let (out, current) := (lines.flatMap (char_chunks max)).foldl (piece_step max) ([], [])
  if current ≠ [] then out ++ [current] else out

/-- Code and tables, in monospace. -/
def preformatted (lines : List Str) (lang : Str) (max : ℕ) : List Block :=
  let lang := lang.takeWhile fun c =>
    ('a' ≤ c && c ≤ 'z') || ('A' ≤ c && c ≤ 'Z') || ('0' ≤ c && c ≤ '9') || c ∈ ['-', '+', '#', '_']
  (pieces lines max).map fun text =>
    { html :=
        if lang.isEmpty then "<pre>".toList ++ escape text ++ "</pre>".toList
        else "<pre><code class=\"language-".toList ++ lang ++ "\">".toList ++ escape text ++ "</code></pre>".toList
      plain := text }

/-- `str::lines`. -/
def lines (s : Str) : List Str :=
  let parts := s.splitOn '\n'
  (parts.dropLast.map fun line => (strip_suffix '\r' line).getD line)
    ++ (parts.getLast?.toList.filter fun line => !line.isEmpty)

def join (parts : List Str) : Str := ['\n'].intercalate parts

def blockquote (rows : List Str) (max : ℕ) : List Block :=
  (pieces rows max).map fun text =>
    { html := "<blockquote>".toList ++ join ((lines text).map fun l => inline_ is_alphanumeric l .quote) ++ "</blockquote>".toList
      plain := text }

/-- The lines from a place on. -/
def blocks_from (max : ℕ) : List Str → List Block
  | [] => []
  | line :: rest =>
    let trimmed := trim_start line
    match fence_open trimmed with
    | some (fence, lang) =>
      let inside := rest.takeWhile fun l => !fence.isPrefixOf (trim l)
      preformatted inside lang max ++ blocks_from max (rest.drop (inside.length + 1))
    | none =>
      if is_table_row trimmed then
        let more := rest.takeWhile fun l => is_table_row (trim_start l)
        preformatted ((line :: more).map trim) [] max ++ blocks_from max (rest.drop more.length)
      else
        match quoted trimmed with
        | some text =>
          let more := rest.takeWhile fun l => (quoted (trim_start l)).isSome
          blockquote is_alphanumeric (text :: more.filterMap fun l => quoted (trim_start l)) max
            ++ blocks_from max (rest.drop more.length)
        | none =>
          if max < line.length then (char_chunks max line).map Block.text ++ blocks_from max rest
          else line_block is_alphanumeric line :: blocks_from max rest
termination_by rows => rows.length
decreasing_by
  all_goals
    simp only [length_drop, length_cons]
    omega

def blocks_of (markdown : Str) (max : ℕ) : List Block := blocks_from is_alphanumeric max (lines markdown)

/-! ## Messages -/

/-- One message, with the plain text to send instead if Telegram turns the markup down. -/
structure Message where
  html : Str
  plain : Str
  deriving DecidableEq

/-- The characters Telegram counts once the markup is read: tags drop out and an entity is one
character. -/
def visible_len : Str → ℕ
  | [] => 0
  | ch :: rest =>
    if ch = '<' then visible_len ((rest.dropWhile fun c => c ≠ '>').drop 1)
    else if ch = '&' then visible_len ((rest.dropWhile fun c => c ≠ ';').drop 1) + 1
    else visible_len rest + 1
termination_by s => s.length
decreasing_by
  · have hle : (rest.dropWhile fun c => c ≠ '>').length ≤ rest.length := (dropWhile_sublist _).length_le
    simp only [length_drop, length_cons]
    omega
  · have hle : (rest.dropWhile fun c => c ≠ ';').length ≤ rest.length := (dropWhile_sublist _).length_le
    simp only [length_drop, length_cons]
    omega
  · simp only [length_cons]
    omega

variable (blocks : List Block)

/-- The blocks of a message without the blank ones at its ends. -/
def message : Option Message :=
  let blocks := (blocks.reverse.dropWhile Block.is_blank).reverse.dropWhile Block.is_blank
  if blocks.isEmpty then none else some ⟨join (blocks.map Block.html), join (blocks.map Block.plain)⟩

/-- A block is put to the message so far, or begins the next one. -/
def pack_step (max : ℕ) (state : List Message × List Block × ℕ) (block : Block) : List Message × List Block × ℕ :=
  let (out, current, len) := state
  let n := Nat.max block.plain.length (visible_len block.html) + 1
  let (out, current, len) :=
    if len + n > max ∧ current.isEmpty = false then (out ++ (message current).toList, [], 0) else (out, current, len)
  (out, current ++ [block], len + n)

def pack (max : ℕ) : List Message :=
  let (out, current, _) := blocks.foldl (pack_step max) ([], [], 0)
  out ++ (message current).toList

/-- `head` is plain text, set in bold over `body`, the agent's Markdown. -/
def messages (head : Str) (body : Option Str) (max : ℕ) : List Message :=
  let first : Block := ⟨"<b>".toList ++ escape head ++ "</b>".toList, head⟩
  let rest :=
    match (body.map trim).filter fun b => !b.isEmpty with
    | some body => Block.text [] :: blocks_of is_alphanumeric body max
    | none => []
  pack (first :: rest) max

end Lpm.Telegram.Format
