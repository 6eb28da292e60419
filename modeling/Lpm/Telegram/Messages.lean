/-
What is sent to Telegram: that the markup of a message is well formed and nests as Telegram
wants it, and that a message fits and nothing is left out.

Every text that is rendered is what is written of a tree (`Renders`), with a character of text
for each character of the source at most. The scanners each say so of one turn, and the length
that Telegram counts is the number of characters in the tree.
-/
import Mathlib.Data.List.Induction
import Lpm.Telegram.Format

set_option autoImplicit false

namespace Lpm.Telegram.Format

open List Option

open RustText Markup Chunks

/-! ## Telegram's elements -/

inductive Tag where
  | b
  | i
  | s
  | code
  | pre
  | a
  | blockquote
  deriving DecidableEq

def Tag.name : Tag → Str
  | b => "b".toList
  | i => "i".toList
  | s => "s".toList
  | code => "code".toList
  | pre => "pre".toList
  | a => "a".toList
  | blockquote => "blockquote".toList

/-- The code of a block that names its language. -/
def language (lang : Str) : Option (Str × Str) := some ("class".toList, "language-".toList ++ lang)

/-- What may stand where. -/
structure Allowed (above : List Tag) (tag : Tag) (attr : Option (Str × Str)) (children : List (Node Tag)) : Prop where
  attrs : attr = none ∨ (tag = .a ∧ ∃ url, attr = some ("href".toList, url))
    ∨ (tag = .code ∧ above = [.pre] ∧ ∃ lang, attr = language lang)
  inside_code : Tag.code ∉ above
  inside_pre : Tag.pre ∈ above → tag = .code ∧ above = [.pre]
  code : tag = .code → (∃ text, children = texts text) ∧ ∀ t ∈ above, t = .pre
  pre : tag = .pre → (∃ text, children = texts text)
    ∨ ∃ lang text, children = [.element .code (language lang) (texts text)]
  link : tag = .a → .a ∉ above ∧ .blockquote ∉ above

/-- The elements that a span may have around it. -/
def Ctx.Around : Ctx → List Tag → Prop
  | .top, above => above = []
  | .emphasis, above => ∀ t ∈ above, t ∈ [Tag.b, .i, .s]
  | .link, above => ∀ t ∈ above, t ∈ [Tag.b, .i, .s, .a]
  | .quote, above => ∀ t ∈ above, t ∈ [Tag.b, .i, .s, .blockquote]

/-- The text is written of a tree of at most so many characters, which may stand where a span
does. -/
def Renders (ctx : Ctx) (k : ℕ) (s : Str) : Prop :=
  ∃ nodes, s = write Tag.name nodes ∧ size nodes ≤ k ∧ ∀ above, ctx.Around above → Placed Allowed above nodes

section
variable {ctx ctx' : Ctx} {k k' n i : ℕ} {s s' t cs : Str} {above : List Tag} {tag : Tag} {ch : Char}

/-! ## One turn -/

theorem Renders.escaped (h : t.length ≤ k) (ctx : Ctx) : Renders ctx k (escape t) := by
  refine ⟨texts t, (write_texts _ _).symm, ?_, fun above _ => placed_texts _ _ _⟩
  rw [size_texts]
  exact h

theorem Renders.append (h : Renders ctx k s) (h' : Renders ctx k' s') : Renders ctx (k + k') (s ++ s') := by
  obtain ⟨nodes, hs, hsize, hplaced⟩ := h
  obtain ⟨nodes', hs', hsize', hplaced'⟩ := h'
  refine ⟨nodes ++ nodes', ?_, ?_, ?_⟩
  · rw [write_append, hs, hs']
  · rw [size_append]
    omega
  · intro above habove
    exact placed_append.mpr ⟨hplaced above habove, hplaced' above habove⟩

theorem Renders.mono (h : Renders ctx k s) (hk : k ≤ k') : Renders ctx k' s := by
  obtain ⟨nodes, hs, hsize, hplaced⟩ := h
  exact ⟨nodes, hs, hsize.trans hk, hplaced⟩

theorem not_mem_of_around (h : ctx.Around above) : Tag.code ∉ above ∧ Tag.pre ∉ above := by
  cases ctx with
  | top =>
    obtain rfl := h
    exact ⟨not_mem_nil, not_mem_nil⟩
  | emphasis | link | quote =>
    constructor
    · intro hin
      exact absurd (h _ hin) (by decide)
    · intro hin
      exact absurd (h _ hin) (by decide)

/-- Where a span may stand in bold, italic or strikethrough, so may the element. -/
theorem Renders.styled (htag : tag ∈ [Tag.b, .i, .s]) (h : Renders (if ctx = .top then .emphasis else ctx) k s) :
    Renders ctx k (opening Tag.name tag none ++ s ++ closing Tag.name tag) := by
  obtain ⟨nodes, rfl, hsize, hplaced⟩ := h
  refine ⟨[.element tag none nodes], ?_, ?_, ?_⟩
  · rw [write_singleton, Node.write]
  · rw [size_singleton, Node.size]
    exact hsize
  · intro above habove
    obtain ⟨hcode, hpre⟩ := not_mem_of_around habove
    refine placed_singleton.mpr ⟨⟨.inl rfl, hcode, fun hin => absurd hin hpre, ?_, ?_, ?_⟩, hplaced _ ?_⟩
    · rintro rfl
      exact absurd htag (by decide)
    · rintro rfl
      exact absurd htag (by decide)
    · rintro rfl
      exact absurd htag (by decide)
    · cases ctx with
      | top =>
        obtain rfl := habove
        intro t ht
        obtain rfl := mem_singleton.mp ht
        exact htag
      | emphasis =>
        intro t ht
        rcases mem_cons.mp ht with rfl | ht
        · exact htag
        · exact habove t ht
      | link =>
        intro t ht
        rcases mem_cons.mp ht with rfl | ht
        · exact mem_append_left [Tag.a] htag
        · exact habove t ht
      | quote =>
        intro t ht
        rcases mem_cons.mp ht with rfl | ht
        · exact mem_append_left [Tag.blockquote] htag
        · exact habove t ht

theorem opening_code : opening Tag.name .code none = "<code>".toList := by decide

theorem closing_code : closing Tag.name .code = "</code>".toList := by decide

theorem Renders.code (h : t.length ≤ k) : Renders .top k ("<code>".toList ++ escape t ++ "</code>".toList) := by
  refine ⟨[.element .code none (texts t)], ?_, ?_, ?_⟩
  · rw [write_singleton, Node.write, write_texts, opening_code, closing_code]
  · rw [size_singleton, Node.size, size_texts]
    exact h
  · rintro above rfl
    exact placed_singleton.mpr ⟨⟨.inl rfl, not_mem_nil, fun hin => absurd hin not_mem_nil,
      fun _ => ⟨⟨t, rfl⟩, fun t ht => absurd ht not_mem_nil⟩, by simp, by simp⟩, placed_texts _ _ _⟩

theorem opening_a (url : Str) :
    opening Tag.name .a (some ("href".toList, url)) = "<a href=\"".toList ++ escape_attr url ++ "\">".toList := by
  have hfirst : "<a href=\"".toList = '<' :: (Tag.name .a ++ ' ' :: ("href".toList ++ "=\"".toList)) := by decide
  have hlast : "\">".toList = "\"".toList ++ ">".toList := by decide
  rw [opening, write_attr, hfirst, hlast]
  simp only [cons_append, append_assoc]

theorem closing_a : closing Tag.name .a = "</a>".toList := by decide

theorem Renders.link {url : Str} (hctx : ctx = .top ∨ ctx = .emphasis) (h : Renders .link k s) :
    Renders ctx k ("<a href=\"".toList ++ escape_attr url ++ "\">".toList ++ s ++ "</a>".toList) := by
  obtain ⟨nodes, rfl, hsize, hplaced⟩ := h
  refine ⟨[.element .a (some ("href".toList, url)) nodes], ?_, ?_, ?_⟩
  · rw [write_singleton, Node.write, opening_a, closing_a]
  · rw [size_singleton, Node.size]
    exact hsize
  · intro above habove
    obtain ⟨hcode, hpre⟩ := not_mem_of_around habove
    have hstyled : ∀ t ∈ above, t ∈ [Tag.b, .i, .s] := by
      rcases hctx with rfl | rfl
      · obtain rfl := habove
        exact fun t ht => absurd ht not_mem_nil
      · exact habove
    refine placed_singleton.mpr ⟨⟨.inr (.inl ⟨rfl, url, rfl⟩), hcode, fun hin => absurd hin hpre, by simp, by simp, ?_⟩,
      hplaced _ ?_⟩
    · intro _
      exact ⟨fun hin => absurd (hstyled _ hin) (by decide), fun hin => absurd (hstyled _ hin) (by decide)⟩
    · intro t ht
      rcases mem_cons.mp ht with rfl | ht
      · decide
      · exact mem_append_left [Tag.a] (hstyled t ht)

/-- What a turn writes is rendered where its part is. -/
def Turn.Writes (ctx : Ctx) (i : ℕ) : Turn → Prop
  | .out text next => Renders ctx (next - i) text
  | .span before inner ctx' after next =>
    ∀ s, Renders ctx' inner.length s → Renders ctx (next - i) (before ++ s ++ after)

theorem escape_self (h : ∀ c ∈ t, c ≠ '&' ∧ c ≠ '<' ∧ c ≠ '>') : escape t = t := by
  induction t with
  | nil => rfl
  | cons c t ih =>
    obtain ⟨hamp, hlt, hgt⟩ := h c mem_cons_self
    have hc : push_escaped c = [c] := by rw [push_escaped, if_neg hamp, if_neg hlt, if_neg hgt]
    have ht := ih fun d hd => h d (mem_cons_of_mem c hd)
    rw [escape] at ht
    rw [escape, flatMap_cons, hc, ht]
    rfl

theorem escape_singleton (ch : Char) : escape [ch] = push_escaped ch := by
  rw [escape, flatMap_cons, flatMap_nil, append_nil]

theorem length_trim_le (s : Str) : (trim s).length ≤ s.length := by
  have hback : ((s.dropWhile is_whitespace).reverse.dropWhile is_whitespace).length ≤ (s.dropWhile is_whitespace).reverse.length :=
    (dropWhile_sublist _).length_le
  have hfront : (s.dropWhile is_whitespace).length ≤ s.length := (dropWhile_sublist _).length_le
  rw [length_reverse] at hback
  rw [trim, length_reverse]
  omega

theorem length_trim_end_le (s : Str) : (trim_end s).length ≤ s.length := by
  have hback : (s.reverse.dropWhile is_whitespace).length ≤ s.reverse.length := (dropWhile_sublist _).length_le
  rw [length_reverse] at hback
  rw [trim_end, length_reverse]
  exact hback

theorem length_trim_angles_le (s : Str) : (trim_angles s).length ≤ s.length := by
  have hback : ∀ p : Char → Bool, ((s.dropWhile p).reverse.dropWhile p).length ≤ (s.dropWhile p).reverse.length :=
    fun p => (dropWhile_sublist p).length_le
  have hfront : ∀ p : Char → Bool, (s.dropWhile p).length ≤ s.length := fun p => (dropWhile_sublist p).length_le
  rw [trim_angles, length_reverse]
  refine (hback _).trans ?_
  rw [length_reverse]
  exact hfront _

/-- A word is not longer than the text it is of. -/
theorem length_word_le {word : Str} (h : word ∈ split_whitespace s) : word.length ≤ s.length := by
  have hpiece : ∀ piece ∈ s.splitOnP is_whitespace, piece.length ≤ s.length := by
    clear h
    induction s with
    | nil =>
      intro piece hpiece
      rw [splitOnP_nil, mem_singleton] at hpiece
      rw [hpiece]
    | cons c s ih =>
      intro piece hpiece
      rw [splitOnP_cons_eq_if_modifyHead] at hpiece
      split_ifs at hpiece
      · rcases mem_cons.mp hpiece with rfl | hpiece
        · exact Nat.zero_le _
        · have hle := ih piece hpiece
          rw [length_cons]
          omega
      · rcases hsplit : s.splitOnP is_whitespace with _ | ⟨first, more⟩
        · rw [hsplit] at hpiece
          exact absurd hpiece not_mem_nil
        · rw [hsplit] at hpiece ih
          rcases mem_cons.mp hpiece with rfl | hpiece
          · exact Nat.succ_le_succ (ih first mem_cons_self)
          · have hle := ih piece (mem_cons_of_mem first hpiece)
            rw [length_cons]
            omega
  exact hpiece word ((mem_filter.mp h).1)

variable (cs : Str) (i : ℕ)

theorem code_span_writes (ctx : Ctx) : (code_span cs i ctx).Writes ctx i := by
  unfold code_span
  dsimp only
  split
  · have hticks : escape (List.replicate (run cs i '\x60') '\x60') = List.replicate (run cs i '\x60') '\x60' := by
      apply escape_self
      intro d hd
      obtain rfl := eq_of_mem_replicate hd
      decide
    have h := @Renders.escaped (i + run cs i '\x60' - i) (List.replicate (run cs i '\x60') '\x60')
      (by rw [length_replicate]; omega) ctx
    rw [hticks] at h
    exact h
  next close hclose =>
    have hle := code_close_le hclose
    have hlen : (trim ((cs.take close).drop (i + run cs i '\x60'))).length ≤ close + run cs i '\x60' - i := by
      refine (length_trim_le _).trans ?_
      rw [length_part]
      omega
    split_ifs with hctx
    · subst hctx
      exact Renders.code hlen
    · exact Renders.escaped hlen ctx

theorem link_writes (ctx : Ctx) : (link cs i ctx).Writes ctx i := by
  unfold link
  split
  · have hbracket : escape "[".toList = "[".toList := by decide
    have h := @Renders.escaped (i + 1 - i) "[".toList (by rw [show "[".toList.length = 1 by decide]; omega) ctx
    rw [hbracket] at h
    exact h
  next label url hparts =>
    obtain ⟨hlabel, hurl, hend⟩ := link_parts_le hparts
    dsimp only
    split_ifs with hlinks hafter
    · intro s hs
      rw [Bool.and_eq_true, Bool.or_eq_true, decide_eq_true_eq, decide_eq_true_eq] at hlinks
      rw [length_part] at hs
      exact (Renders.link hlinks.2 hs).mono (by omega)
    · intro s hs
      generalize hu : trim_angles ((split_whitespace ((cs.take url).drop (label + 2))).head?.getD []) = u
      have hulen : u.length ≤ url - (label + 2) := by
        rw [← hu]
        refine (length_trim_angles_le _).trans ?_
        rcases hhead : (split_whitespace ((cs.take url).drop (label + 2))).head? with _ | word
        · exact Nat.zero_le _
        · have hle := length_word_le (mem_of_head? hhead)
          rw [length_part] at hle
          exact hle.trans (by omega)
      have hround : " (".toList ++ escape u ++ ")".toList = escape (" (".toList ++ u ++ ")".toList) := by
        rw [escape_append, escape_append]
        congr 1
      have hmore := @Renders.escaped (u.length + 3) (" (".toList ++ u ++ ")".toList)
        (by rw [length_append, length_append]; simp; omega) ctx
      rw [length_part] at hs
      rw [nil_append, hround]
      exact (hs.append hmore).mono (by omega)
    · intro s hs
      rw [length_part] at hs
      rw [nil_append, append_nil]
      exact hs.mono (by omega)

theorem autolink_writes (ctx : Ctx) : (autolink cs i ctx).Writes ctx i := by
  have hangle : (Turn.out "&lt;".toList (i + 1)).Writes ctx i := by
    have hlt : escape ['<'] = "&lt;".toList := by decide
    have h := @Renders.escaped (i + 1 - i) ['<'] (by rw [length_singleton]; omega) ctx
    rw [hlt] at h
    exact h
  unfold autolink
  split
  · exact hangle
  next close hclose =>
    have hlen : ((cs.take close).drop (i + 1)).length ≤ close + 1 - i := by
      rw [length_part]
      omega
    dsimp only
    split_ifs with hlinks hctx
    · rw [Bool.or_eq_true, decide_eq_true_eq, decide_eq_true_eq] at hctx
      exact Renders.link hctx (Renders.escaped hlen .link)
    · exact Renders.escaped hlen ctx
    · exact hangle

theorem emphasis_writes {is_alphanumeric : Char → Bool} (ch : Char) (ctx : Ctx) :
    (emphasis is_alphanumeric cs i ch ctx).Writes ctx i := by
  have hliteral : (Turn.out (escape (List.replicate (run cs i ch) ch)) (i + run cs i ch)).Writes ctx i :=
    Renders.escaped (by rw [length_replicate]; omega) ctx
  unfold emphasis
  dsimp only
  by_cases hlit : 3 < run cs i ch ∨ (ch = '~' ∧ run cs i ch ≠ 2)
  · rw [if_pos hlit]
    exact hliteral
  · rw [if_neg hlit]
    split
    · exact hliteral
    next close hclose =>
      split_ifs at hclose
      have hle := (emphasis_close_le hclose).1
      intro s hs
      have hs : Renders (if ctx = .top then .emphasis else ctx) (close + run cs i ch - i) s := by
        rw [length_part] at hs
        exact hs.mono (by omega)
      split_ifs
      · exact Renders.styled (by decide : Tag.s ∈ _) hs
      · exact Renders.styled (by decide : Tag.i ∈ _) hs
      · exact Renders.styled (by decide : Tag.b ∈ _) hs
      -- three marks write two elements, the inner one first
      · have hinner : Renders (if ctx = .top then .emphasis else ctx) (close + run cs i ch - i)
            (opening Tag.name .i none ++ s ++ closing Tag.name .i) := by
          apply Renders.styled (by decide)
          have hctx : (if (if ctx = .top then Ctx.emphasis else ctx) = .top then Ctx.emphasis else (if ctx = .top then .emphasis else ctx))
              = if ctx = .top then .emphasis else ctx := by
            cases ctx with
            | top | emphasis | link | quote => rfl
          rw [hctx]
          exact hs
        have hboth := @Renders.styled ctx _ _ .b (by decide) hinner
        have hopen : "<b><i>".toList = opening Tag.name .b none ++ opening Tag.name .i none := by decide
        have hclose : "</i></b>".toList = closing Tag.name .i ++ closing Tag.name .b := by decide
        rw [hopen, hclose]
        simp only [append_assoc] at hboth ⊢
        exact hboth

variable (is_alphanumeric : Char → Bool)

theorem turn_writes (cs : Str) (ctx : Ctx) (i : ℕ) (ch : Char) :
    (turn is_alphanumeric cs ctx i ch).Writes ctx i := by
  have hchar : ∀ x : Char, ∀ next, i < next → Renders ctx (next - i) (push_escaped x) := by
    intro x next hnext
    have h := @Renders.escaped (next - i) [x] (by rw [length_singleton]; omega) ctx
    rw [escape_singleton] at h
    exact h
  unfold turn
  split_ifs with hescape htick hlink hauto hemphasis
  · rcases hnext : cs[i + 1]? with _ | x
    · rw [hnext] at hescape
      exact absurd hescape.2 Bool.false_ne_true
    · exact hchar x (i + 2) (by omega)
  · exact code_span_writes cs i ctx
  · exact link_writes cs i ctx
  · exact autolink_writes cs i ctx
  · exact emphasis_writes cs i ch ctx
  · split
    · apply Renders.escaped
      rw [length_part]
      omega
    · exact hchar ch (i + 1) (by omega)

/-! ## A whole text -/

/-- What is rendered from a place on. The part of a turn is shorter than the text, and the scan
goes on further on. -/
theorem render_renders (cs : Str) (ctx : Ctx) (i : ℕ) :
    Renders ctx (cs.length - i) (render is_alphanumeric cs ctx i) := by
  induction hlen : cs.length using Nat.strong_induction_on generalizing cs ctx i with
  | h len ihlen =>
    induction hm : cs.length - i using Nat.strong_induction_on generalizing i with
    | h m ih =>
      rw [render]
      split
      · exact ⟨[], rfl, Nat.zero_le _, fun _ _ => trivial⟩
      next ch hget =>
        have hgoes := @turn_goes is_alphanumeric cs i ch hget ctx
        have hwrites := turn_writes is_alphanumeric cs ctx i ch
        split
        next text next hturn =>
          rw [hturn] at hgoes hwrites
          have hlt : i < next := hgoes.lt
          have hle : next ≤ cs.length := hgoes.le
          have hrest := ih (cs.length - next) (by omega) next rfl
          exact (Renders.append hwrites hrest).mono (by omega)
        next before inner ctx' after next hturn =>
          have hshorter := hgoes.shorter _ _ _ _ _ hturn
          rw [hturn] at hgoes hwrites
          have hlt : i < next := hgoes.lt
          have hle : next ≤ cs.length := hgoes.le
          have hinner := ihlen inner.length (by omega) inner ctx' 0 rfl
          rw [Nat.sub_zero] at hinner
          have hrest := ih (cs.length - next) (by omega) next rfl
          exact ((hwrites _ hinner).append hrest).mono (by omega)

theorem inline_renders (text : Str) (ctx : Ctx) :
    Renders ctx text.length (inline_ is_alphanumeric text ctx) := render_renders is_alphanumeric text ctx 0

/-! ## Blocks -/

/-- What a text takes with a line break behind it. -/
def total (rows : List Str) : ℕ := (rows.map fun row => row.length + 1).sum

theorem Renders.joined {β : Type} {items : List β} {size_of : β → ℕ} {html : β → Str}
    (h : ∀ x ∈ items, Renders ctx (size_of x) (html x)) :
    Renders ctx ((items.map fun x => size_of x + 1).sum - 1) (join (items.map html)) := by
  induction items with
  | nil => exact ⟨[], rfl, Nat.zero_le _, fun _ _ => trivial⟩
  | cons x items ih =>
    have hx := h x mem_cons_self
    have hrest := ih fun y hy => h y (mem_cons_of_mem x hy)
    cases items with
    | nil =>
      rw [map_singleton, map_singleton, join, intercalate_singleton]
      exact hx.mono (by simp)
    | cons y items =>
      have hbreak : Renders ctx 1 ['\n'] := by
        have hescape := @Renders.escaped 1 ['\n'] (by rw [length_singleton]) ctx
        rw [show escape ['\n'] = ['\n'] by decide] at hescape
        exact hescape
      have hjoin : join ((x :: y :: items).map html) = html x ++ (['\n'] ++ join ((y :: items).map html)) := by
        rw [join, map_cons, map_cons, intercalate_cons_cons, append_assoc]
        rfl
      rw [hjoin]
      refine (hx.append (hbreak.append hrest)).mono ?_
      simp only [map_cons, sum_cons]
      omega

theorem length_join (rows : List Str) : (join rows).length = total rows - 1 := by
  induction rows with
  | nil => rfl
  | cons row rows ih =>
    cases rows with
    | nil => simp [join, total]
    | cons next rows =>
      rw [join] at ih
      rw [join, intercalate_cons_cons, length_append, length_append, ih]
      simp only [total, map_cons, sum_cons, length_singleton]
      omega

theorem total_append (a b : List Str) : total (a ++ b) = total a + total b := by
  rw [total, map_append, sum_append]
  rfl

theorem total_map_le {f : Str → Str} (hf : ∀ row, (f row).length ≤ row.length) (rows : List Str) :
    total (rows.map f) ≤ total rows := by
  induction rows with
  | nil => exact le_rfl
  | cons row rows ih =>
    have hrow := hf row
    simp only [total, map_cons, sum_cons] at ih ⊢
    omega

/-- A text is not shorter than its lines. -/
theorem total_lines_le (s : Str) : total (lines s) - 1 ≤ s.length := by
  have hjoin : join (s.splitOn '\n') = s := by
    rw [join]
    exact intercalate_splitOn '\n'
  have hne : s.splitOn '\n' ≠ [] := splitOn_ne_nil '\n' s
  have hlen : s.length = total (s.splitOn '\n') - 1 := by rw [← length_join, hjoin]
  have hstrip : ∀ row : Str, ((strip_suffix '\r' row).getD row).length ≤ row.length := by
    intro row
    rw [strip_suffix]
    split_ifs
    · rw [getD_some, length_dropLast]
      exact Nat.sub_le _ _
    · exact le_rfl
  have hparts : total (s.splitOn '\n') = total (s.splitOn '\n').dropLast + total [(s.splitOn '\n').getLast hne] := by
    rw [← total_append, dropLast_concat_getLast hne]
  have hmap := total_map_le hstrip (s.splitOn '\n').dropLast
  have hlast : total ((s.splitOn '\n').getLast?.toList.filter fun line : Str => !line.isEmpty) ≤ total [(s.splitOn '\n').getLast hne] := by
    rw [getLast?_eq_some_getLast hne]
    cases (s.splitOn '\n').getLast hne with
    | nil => exact Nat.zero_le _
    | cons c line => exact le_rfl
  rw [lines, total_append, hlen]
  exact Nat.sub_le_sub_right (Nat.add_le_add hmap hlast |>.trans_eq hparts.symm) 1

/-- A block's markup is no longer than its plain text, unless it is a rule. -/
def Block.Formed (b : Block) : Prop := Renders .top (Nat.max b.plain.length 10) b.html

theorem Block.formed_text (plain : Str) : (Block.text plain).Formed := Renders.escaped (Nat.le_max_left _ _) .top

theorem length_heading_le {line text : Str} (h : heading line = some text) : text.length ≤ line.length := by
  rw [heading] at h
  dsimp only at h
  split_ifs at h
  obtain rfl := some.inj h
  have hback : ∀ p : Char → Bool, ∀ x : Str, ((x.reverse.dropWhile p).reverse).length ≤ x.length := by
    intro p x
    rw [length_reverse, ← @length_reverse _ x]
    exact (dropWhile_sublist p).length_le
  calc _ ≤ _ := length_trim_end_le _
    _ ≤ _ := hback _ _
    _ ≤ _ := length_trim_le _
    _ ≤ line.length := by rw [length_drop]; exact Nat.sub_le _ _

theorem length_strip_prefix {p rest : Str} (h : strip_prefix p s = some rest) : s.length = p.length + rest.length := by
  rw [strip_prefix_eq h, length_append]

/-- An item is two characters shorter than its line. -/
theorem length_list_item_le {line item : Str} (h : list_item line = some item) : item.length + 2 ≤ line.length := by
  obtain ⟨rest, hrest, rfl⟩ := map_eq_some_iff.mp h
  have hmark : rest.length + 2 = line.length := by
    obtain ⟨mark, hmark, hstrip⟩ := exists_of_findSome?_eq_some hrest
    have hlen := length_strip_prefix hstrip
    have htwo : mark.length = 2 := by
      rcases hmark with _ | ⟨_, _ | ⟨_, _ | ⟨_, hmark⟩⟩⟩
      · rfl
      · rfl
      · rfl
      · exact nomatch hmark
    omega
  have htrim : (trim_start rest).length ≤ rest.length := (dropWhile_sublist _).length_le
  have hbox : ∀ box : Str, ∀ mark : Str, box.length = 4 → mark.length = 2 → ∀ task, strip_prefix box (trim_start rest) = some task →
      (mark ++ task).length ≤ rest.length := by
    intro box mark hbox hmark task hstrip
    have hlen := length_strip_prefix hstrip
    rw [length_append]
    omega
  dsimp only
  split
  next task htask =>
    have hle := hbox _ "☐ ".toList (by decide) (by decide) task htask
    omega
  · split
    next task htask =>
      rcases hx : strip_prefix "[x] ".toList (trim_start rest) with _ | task'
      · rw [hx] at htask
        have hle := hbox _ "☑ ".toList (by decide) (by decide) task htask
        omega
      · rw [hx] at htask
        obtain rfl := some.inj htask
        have hle := hbox _ "☑ ".toList (by decide) (by decide) task' hx
        omega
    · omega

/-- What a line is set in by is blank. -/
theorem escape_indent (line : Str) :
    escape (line.take (line.length - (trim_start line).length)) = line.take (line.length - (trim_start line).length) := by
  apply escape_self
  have hsplit := @takeWhile_append_dropWhile _ is_whitespace line
  have htake : line.take (line.length - (trim_start line).length) = line.takeWhile is_whitespace := by
    have hlen := congrArg List.length hsplit
    rw [length_append] at hlen
    have hn : line.length - (trim_start line).length = (line.takeWhile is_whitespace).length := by
      rw [trim_start]
      omega
    rw [hn]
    exact prefix_iff_eq_take.mp (List.takeWhile_prefix _) |>.symm
  intro c hc
  rw [htake] at hc
  have hwhite := mem_takeWhile_imp hc
  refine ⟨?_, ?_, ?_⟩
  · rintro rfl
    exact absurd hwhite (by decide)
  · rintro rfl
    exact absurd hwhite (by decide)
  · rintro rfl
    exact absurd hwhite (by decide)

theorem line_block_formed (line : Str) : (line_block is_alphanumeric line).Formed := by
  have htrim : (trim_start line).length ≤ line.length := (dropWhile_sublist _).length_le
  unfold line_block
  dsimp only
  split
  -- a heading is bold
  next text htext =>
    have hlen : text.length ≤ line.length := (length_heading_le htext).trans htrim
    have hbold := @Renders.styled .top _ _ .b (by decide) (inline_renders is_alphanumeric text .emphasis)
    have hopen : "<b>".toList = opening Tag.name .b none := by decide
    have hclose : "</b>".toList = closing Tag.name .b := by decide
    rw [hopen, hclose]
    exact hbold.mono (hlen.trans (Nat.le_max_left _ _))
  · split_ifs
    · have hrule : escape "──────────".toList = "──────────".toList := by decide
      have h := @Renders.escaped 10 "──────────".toList (by decide) .top
      rw [hrule] at h
      exact h.mono (Nat.le_max_right _ _)
    · split
      -- an item is set behind a bullet, as far in as it was
      next item hitem =>
        have hlen := length_list_item_le hitem
        have hbullet : escape "• ".toList = "• ".toList := by decide
        have h := @Renders.escaped 2 "• ".toList (by decide) .top
        rw [hbullet] at h
        have hindent := @Renders.escaped (line.length - (trim_start line).length) _ (length_take_le _ line) .top
        rw [escape_indent] at hindent
        exact ((hindent.append h).append (inline_renders is_alphanumeric item .top)).mono
          (le_trans (by omega : _ ≤ line.length) (Nat.le_max_left _ _))
      · exact (inline_renders is_alphanumeric line .top).mono (Nat.le_max_left _ _)

theorem escape_attr_self (h : ∀ c ∈ t, c ≠ '&' ∧ c ≠ '<' ∧ c ≠ '>' ∧ c ≠ '"') : escape_attr t = t := by
  have hescape : escape t = t := escape_self fun c hc => ⟨(h c hc).1, (h c hc).2.1, (h c hc).2.2.1⟩
  rw [escape_attr, hescape]
  clear hescape
  induction t with
  | nil => rfl
  | cons c t ih =>
    rw [List.flatMap_cons, if_neg (h c List.mem_cons_self).2.2.2, ih fun d hd => h d (List.mem_cons_of_mem c hd)]
    rfl

theorem opening_pre : opening Tag.name .pre none = "<pre>".toList := by decide

theorem closing_pre : closing Tag.name .pre = "</pre>".toList := by decide

theorem opening_language {lang : Str} (h : escape_attr ("language-".toList ++ lang) = "language-".toList ++ lang) :
    opening Tag.name .pre none ++ opening Tag.name .code (language lang)
      = "<pre><code class=\"language-".toList ++ lang ++ "\">".toList := by
  have hfirst : "<pre><code class=\"language-".toList
      = opening Tag.name .pre none ++ '<' :: (Tag.name .code ++ ' ' :: ("class".toList ++ "=\"".toList)) ++ "language-".toList := by
    decide
  have hlast : "\">".toList = "\"".toList ++ ">".toList := by decide
  have hcode : opening Tag.name .code (language lang)
      = '<' :: (Tag.name .code ++ (' ' :: ("class".toList ++ "=\"".toList ++ ("language-".toList ++ lang) ++ "\"".toList)) ++ ">".toList) := by
    rw [opening, language, write_attr, h]
  rw [hfirst, hlast, hcode]
  simp only [cons_append, append_assoc]

theorem preformatted_formed {lines : List Str} {lang : Str} {max : ℕ} {b : Block} (h : b ∈ preformatted lines lang max) :
    b.Formed := by
  obtain ⟨text, -, rfl⟩ := List.mem_map.mp h
  unfold Block.Formed
  dsimp only
  split_ifs
  · refine ⟨[.element .pre none (texts text)], ?_, ?_, ?_⟩
    · rw [write_singleton, Node.write, write_texts, opening_pre, closing_pre]
    · rw [size_singleton, Node.size, size_texts]
      exact Nat.le_max_left _ _
    · rintro above rfl
      exact placed_singleton.mpr ⟨⟨.inl rfl, not_mem_nil, fun hin => absurd hin not_mem_nil, by simp,
        fun _ => .inl ⟨text, rfl⟩, by simp⟩, placed_texts _ _ _⟩
  -- the letters of a language need no entity
  · generalize hlang : lang.takeWhile _ = word
    have hword : escape_attr ("language-".toList ++ word) = "language-".toList ++ word := by
      apply escape_attr_self
      intro c hc
      rcases mem_append.mp hc with hc | hc
      · have hall : ("language-".toList.all fun c => c ≠ '&' ∧ c ≠ '<' ∧ c ≠ '>' ∧ c ≠ '"') = true := by decide
        exact of_decide_eq_true (List.all_eq_true.mp hall c hc)
      · rw [← hlang] at hc
        have hletter := List.mem_takeWhile_imp hc
        refine ⟨?_, ?_, ?_, ?_⟩
        · rintro rfl
          exact absurd hletter (by decide)
        · rintro rfl
          exact absurd hletter (by decide)
        · rintro rfl
          exact absurd hletter (by decide)
        · rintro rfl
          exact absurd hletter (by decide)
    have hcloses : "</code></pre>".toList = closing Tag.name .code ++ closing Tag.name .pre := by decide
    refine ⟨[.element .pre none [.element .code (language word) (texts text)]], ?_, ?_, ?_⟩
    · rw [write_singleton, Node.write, write_singleton, Node.write, write_texts, hcloses, ← opening_language hword]
      simp only [List.append_assoc]
    · rw [size_singleton, Node.size, size_singleton, Node.size, size_texts]
      exact Nat.le_max_left _ _
    · rintro above rfl
      refine placed_singleton.mpr ⟨⟨.inl rfl, List.not_mem_nil, fun hin => absurd hin List.not_mem_nil, by simp,
        fun _ => .inr ⟨word, text, rfl⟩, by simp⟩, placed_singleton.mpr ⟨?_, placed_texts _ _ _⟩⟩
      refine ⟨.inr (.inr ⟨rfl, rfl, word, rfl⟩), ?_, fun _ => ⟨rfl, rfl⟩, fun _ => ⟨⟨text, rfl⟩, ?_⟩, by simp, by simp⟩
      · decide
      · exact fun t ht => List.mem_singleton.mp ht

variable {is_alphanumeric : Char → Bool}

theorem blockquote_formed {rows : List Str} {max : ℕ} {b : Block}
    (h : b ∈ blockquote is_alphanumeric rows max) : b.Formed := by
  obtain ⟨text, -, rfl⟩ := List.mem_map.mp h
  obtain ⟨nodes, hwrite, hsize, hplaced⟩ :=
    Renders.joined fun row (_ : row ∈ lines text) => inline_renders is_alphanumeric row .quote
  have hopen : opening Tag.name .blockquote none = "<blockquote>".toList := by decide
  have hclose : closing Tag.name .blockquote = "</blockquote>".toList := by decide
  refine ⟨[.element .blockquote none nodes], ?_, ?_, ?_⟩
  · rw [write_singleton, Node.write, hopen, hclose, ← hwrite]
  · rw [size_singleton, Node.size]
    exact (hsize.trans (total_lines_le text)).trans (Nat.le_max_left _ _)
  · rintro above rfl
    refine placed_singleton.mpr ⟨⟨.inl rfl, List.not_mem_nil, fun hin => absurd hin List.not_mem_nil, by simp, by simp, by simp⟩,
      hplaced _ ?_⟩
    intro t ht
    rw [List.mem_singleton.mp ht]
    decide

theorem blocks_from_formed {max : ℕ} {rows : List Str} {b : Block}
    (h : b ∈ blocks_from is_alphanumeric max rows) : b.Formed := by
  -- a block takes many rows at once, so the induction is on their number
  induction hlen : rows.length using Nat.strong_induction_on generalizing rows with
  | h n ih =>
    have hlater : ∀ more : List Str, more.length < rows.length → b ∈ blocks_from is_alphanumeric max more → b.Formed :=
      fun more hmore hb => ih more.length (hlen ▸ hmore) hb rfl
    cases rows with
    | nil =>
      rw [blocks_from] at h
      cases h
    | cons line rest =>
      have hdrop : ∀ k, (rest.drop k).length < (line :: rest).length := by
        intro k
        rw [List.length_drop, List.length_cons]
        omega
      rw [blocks_from] at h
      dsimp only at h
      split at h
      · rcases List.mem_append.mp h with h | h
        · exact preformatted_formed h
        · exact hlater _ (hdrop _) h
      · by_cases htable : is_table_row (trim_start line) = true
        · rw [if_pos htable] at h
          rcases List.mem_append.mp h with h | h
          · exact preformatted_formed h
          · exact hlater _ (hdrop _) h
        · rw [if_neg htable] at h
          split at h
          · rcases List.mem_append.mp h with h | h
            · exact blockquote_formed h
            · exact hlater _ (hdrop _) h
          · split_ifs at h
            · rcases List.mem_append.mp h with h | h
              · obtain ⟨piece, -, rfl⟩ := List.mem_map.mp h
                exact Block.formed_text piece
              · exact hlater rest (Nat.lt_succ_self _) h
            · rcases List.mem_cons.mp h with rfl | h
              · exact line_block_formed is_alphanumeric line
              · exact hlater rest (Nat.lt_succ_self _) h

/-! ## Messages -/

/-- What a block takes in a message. -/
def Block.weight (b : Block) : ℕ := Nat.max b.plain.length (visible_len b.html) + 1

/-- The blocks stand in the messages in order, as many in one as fit. -/
structure Packed (max : ℕ) (blocks : List Block) (groups : List (List Block)) : Prop where
  flatten : groups.flatten = blocks
  fits : ∀ group ∈ groups, (group.map Block.weight).sum ≤ max ∨ group.length ≤ 1

theorem pack_packed (blocks : List Block) (max : ℕ) :
    ∃ groups, Packed max blocks groups ∧ pack blocks max = groups.filterMap message := by
  -- the induction is on the last block: the group being filled is the last
  have hrun : ∃ groups current,
      Packed max blocks (groups ++ [current])
        ∧ blocks.foldl (pack_step max) ([], [], 0) = (groups.filterMap message, current, (current.map Block.weight).sum) := by
    induction blocks using List.reverseRecOn with
    | nil =>
      refine ⟨[], [], ⟨rfl, ?_⟩, rfl⟩
      intro group hgroup
      rw [List.mem_singleton.mp hgroup]
      exact .inl (Nat.zero_le _)
    | append_singleton blocks b ih =>
      obtain ⟨groups, current, ⟨hflat, hfits⟩, hfold⟩ := ih
      rw [List.foldl_append, List.foldl_cons, List.foldl_nil, hfold, pack_step]
      dsimp only
      rw [List.flatten_append, List.flatten_singleton] at hflat
      by_cases hfull : (current.map Block.weight).sum + b.weight > max ∧ current.isEmpty = false
      · refine ⟨groups ++ [current], [b], ⟨?_, ?_⟩, ?_⟩
        · rw [List.flatten_append, List.flatten_append, List.flatten_singleton, List.flatten_singleton, hflat]
        · intro group hgroup
          rcases List.mem_append.mp hgroup with hgroup | hgroup
          · exact hfits group hgroup
          · rw [List.mem_singleton.mp hgroup]
            exact .inr le_rfl
        · rw [Block.weight] at hfull
          rw [if_pos hfull, List.filterMap_append]
          simp only [List.filterMap_cons, List.filterMap_nil, List.nil_append, List.map_singleton, List.sum_singleton, Block.weight]
          cases message current with
          | none => simp
          | some m => simp
      · refine ⟨groups, current ++ [b], ⟨?_, ?_⟩, ?_⟩
        · rw [List.flatten_append, List.flatten_singleton, ← List.append_assoc, hflat]
        · intro group hgroup
          rcases List.mem_append.mp hgroup with hgroup | hgroup
          · exact hfits group (List.mem_append_left _ hgroup)
          · rw [List.mem_singleton.mp hgroup]
            -- a block that is alone in its group may be too long
            cases current with
            | nil => exact .inr le_rfl
            | cons first more =>
              left
              rw [List.map_append, List.sum_append, List.map_singleton, List.sum_singleton]
              by_contra hover
              exact hfull ⟨by omega, rfl⟩
        · rw [Block.weight] at hfull
          rw [if_neg hfull, List.map_append, List.sum_append, List.map_singleton, List.sum_singleton, Block.weight]
  obtain ⟨groups, current, hpacked, hfold⟩ := hrun
  refine ⟨groups ++ [current], hpacked, ?_⟩
  rw [pack, hfold, List.filterMap_append]
  cases hm : message current with
  | none => simp [hm]
  | some m => simp [hm]

/-- The blocks of a message, without the blank ones at its ends. -/
def kept (group : List Block) : List Block := (group.reverse.dropWhile Block.is_blank).reverse.dropWhile Block.is_blank

theorem kept_sublist (group : List Block) : (kept group).Sublist group := by
  refine (List.dropWhile_sublist _).trans ?_
  have h := (List.dropWhile_sublist (l := group.reverse) Block.is_blank).reverse
  rw [List.reverse_reverse] at h
  exact h

theorem message_eq {group : List Block} {m : Message} (h : message group = some m) :
    kept group ≠ [] ∧ m = ⟨join ((kept group).map Block.html), join ((kept group).map Block.plain)⟩ := by
  unfold message at h
  rw [← kept] at h
  dsimp only at h
  split_ifs at h with hempty
  refine ⟨?_, (Option.some.inj h).symm⟩
  intro hnil
  exact hempty (List.isEmpty_iff.mpr hnil)

/-- A message is made of blocks that were packed. -/
theorem mem_pack {blocks : List Block} {max : ℕ} {m : Message} (h : m ∈ pack blocks max) :
    ∃ group, kept group ≠ [] ∧ group.Sublist blocks ∧ ((group.map Block.weight).sum ≤ max ∨ group.length ≤ 1)
      ∧ m = ⟨join ((kept group).map Block.html), join ((kept group).map Block.plain)⟩ := by
  obtain ⟨groups, hpacked, hpack⟩ := pack_packed blocks max
  rw [hpack] at h
  obtain ⟨group, hgroup, hm⟩ := List.mem_filterMap.mp h
  obtain ⟨hne, hm⟩ := message_eq hm
  refine ⟨group, hne, ?_, hpacked.fits group hgroup, hm⟩
  rw [← hpacked.flatten]
  exact List.sublist_flatten_of_mem hgroup

/-- The blocks of which messages are made. -/
def all_blocks (is_alphanumeric : Char → Bool) (head : Str) (body : Option Str) (max : ℕ) : List Block :=
  ⟨"<b>".toList ++ escape head ++ "</b>".toList, head⟩
    :: match (body.map trim).filter fun b => !b.isEmpty with
      | some body => Block.text [] :: blocks_of is_alphanumeric body max
      | none => []

theorem head_formed (head : Str) : Block.Formed ⟨"<b>".toList ++ escape head ++ "</b>".toList, head⟩ := by
  have hbold := @Renders.styled .top _ _ .b (by decide) (@Renders.escaped head.length head le_rfl .emphasis)
  have hopen : "<b>".toList = opening Tag.name .b none := by decide
  have hclose : "</b>".toList = closing Tag.name .b := by decide
  rw [hopen, hclose]
  exact hbold.mono (Nat.le_max_left _ _)

theorem all_blocks_formed {head : Str} {body : Option Str} {max : ℕ} {b : Block}
    (h : b ∈ all_blocks is_alphanumeric head body max) : b.Formed := by
  rcases List.mem_cons.mp h with rfl | h
  · exact head_formed head
  · split at h
    · rcases List.mem_cons.mp h with rfl | h
      · exact Block.formed_text []
      · exact blocks_from_formed h
    · cases h

/-- Each message is what is written of a tree of elements that Telegram takes. A block of code
that names its language is a `code` in a `pre`. -/
theorem messages_formed (is_alphanumeric : Char → Bool) (head : Str) (body : Option Str) (max : ℕ) :
    ∀ m ∈ messages is_alphanumeric head body max, ∃ nodes, m.html = write Tag.name nodes ∧ Placed Allowed [] nodes := by
  intro m hm
  obtain ⟨group, -, hsub, -, rfl⟩ := @mem_pack (all_blocks is_alphanumeric head body max) max m hm
  have hformed : ∀ b ∈ kept group, b.Formed :=
    fun b hb => all_blocks_formed (hsub.subset ((kept_sublist group).subset hb))
  obtain ⟨nodes, hwrite, -, hplaced⟩ := Renders.joined hformed
  exact ⟨nodes, hwrite, hplaced [] rfl⟩

/-- The message of a block that names its language. -/
def code_message : Message :=
  ⟨"<b>head</b>\n\n<pre><code class=\"language-rust\">x</code></pre>".toList, "head\n\nx".toList⟩

theorem code_message_sent :
    code_message ∈ messages Char.isAlphanum "head".toList (some "\x60\x60\x60rust\nx\n\x60\x60\x60".toList) 4096 := by
  decide +kernel

theorem messages_formed_code : ∃ nodes, code_message.html = write Tag.name nodes ∧ Placed Allowed [] nodes :=
  messages_formed Char.isAlphanum "head".toList (some "\x60\x60\x60rust\nx\n\x60\x60\x60".toList) 4096 code_message
    code_message_sent

/-- Inside the `pre` of a block that names its language stands an element. -/
theorem element_in_pre :
    ∃ m ∈ messages Char.isAlphanum "head".toList (some "\x60\x60\x60rust\nx\n\x60\x60\x60".toList) 4096, ∃ before inside after,
      m.html = before ++ "<pre>".toList ++ inside ++ "</pre>".toList ++ after ∧ '<' ∈ inside := by
  refine ⟨code_message, code_message_sent, "<b>head</b>\n\n".toList,
    "<code class=\"language-rust\">x</code>".toList, [], ?_, ?_⟩
  · decide
  · decide

end

end Lpm.Telegram.Format
