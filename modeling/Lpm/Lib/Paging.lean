/-
Reading a list page by page, where a page is what comes behind a cursor, and the list lies
in parts of which each gives its own first elements.

The list is in a strict order, so behind its own elements a cursor stands for one place.
The first `n` of the whole are among the first `n` of each part: an element with fewer than
`n` before it has no more than these before it in its own part.
-/
import Lpm.Lib.SortedList

set_option autoImplicit false

open StableSort

namespace Paging

open List Option

variable {α κ : Type*} [LinearOrder κ] (rank : α → κ)

/-- In the strict order of a rank. -/
def Ranked (l : List α) : Prop := l.Pairwise fun a b => rank a < rank b

/-- The element comes behind the cursor. -/
def past (cursor : Option α) (a : α) : Bool := cursor.all fun c => rank c < rank a

/-- What comes behind a cursor. -/
def behind (cursor : Option α) (l : List α) : List α := l.filter (past rank cursor)

/-- Asks for page after page, each behind the last element received, until one comes empty. -/
def paging (page : Option α → List α) : ℕ → Option α → Option (List α)
  | 0, _ => none
  | k + 1, cursor =>
    if page cursor = [] then some []
    else (paging page k (page cursor).getLast?).map (page cursor ++ ·)

variable {rank : α → κ} {l : List α}

theorem Ranked.nodup (h : Ranked rank l) : l.Nodup :=
  h.imp fun hlt heq => absurd (heq ▸ hlt) (lt_irrefl _)

/-- Sorting elements of different ranks orders them strictly. -/
theorem ranked_sortBy (h : l.Pairwise fun a b => rank a ≠ rank b) : Ranked rank (sortBy rank l) := by
  have hne : (sortBy rank l).Pairwise fun a b => rank a ≠ rank b :=
    (sortBy_perm rank l).symm.pairwise h fun hab => hab.symm
  exact (pairwise_and_iff.mpr ⟨sortBy_pairwise rank l, hne⟩).imp
    fun hab => lt_of_le_of_ne hab.1 hab.2

/-- No two elements share a rank. -/
theorem Ranked.eq_of_rank (h : Ranked rank l) {a b : α} (ha : a ∈ l) (hb : b ∈ l)
    (heq : rank a = rank b) : a = b := by
  have : Std.Symm fun x y : α => rank x = rank y → x = y := ⟨fun _ _ hxy he => (hxy he.symm).symm⟩
  have hpair : l.Pairwise fun x y => rank x = rank y → x = y :=
    h.imp fun hlt he => absurd (he ▸ hlt) (lt_irrefl _)
  exact hpair.forall_of_forall (fun _ _ _ => rfl) ha hb heq

/-! ## The first of the whole -/

/-- The first `n` of a list that pass a test are among the first `n` that pass it. -/
theorem prefix_filter_take (p : α → Bool) (n : ℕ) (l : List α) :
    (l.take n).filter p <+: (l.filter p).take n := by
  have hlen : ((l.take n).filter p).length ≤ n :=
    (length_filter_le _ _).trans (length_take_le _ _)
  have hsplit : l.filter p = (l.take n).filter p ++ (l.drop n).filter p := by
    rw [← filter_append, take_append_drop]
  rw [hsplit, take_append, take_of_length_le hlen]
  exact prefix_append _ _

/-- The first `n` of all the parts' first `n` are the first `n` of the whole. -/
theorem take_sortBy_parts {ι : Type*} [DecidableEq ι] (h : Ranked rank l) (whose : α → ι)
    {parts : List ι} (hparts : parts.Nodup) (hcover : ∀ a ∈ l, whose a ∈ parts) (n : ℕ) :
    (sortBy rank (parts.flatMap fun i => (l.filter fun a => whose a = i).take n)).take n =
      l.take n := by
  classical
  set firsts := parts.flatMap fun i => (l.filter fun a => whose a = i).take n with hfirsts
  have hmem : ∀ {a i}, a ∈ (l.filter fun a => whose a = i).take n → a ∈ l ∧ whose a = i := by
    intro a i ha
    simpa using mem_filter.mp (mem_of_mem_take ha)
  have hsub : ∀ a ∈ firsts, a ∈ l := by
    intro a ha
    obtain ⟨i, -, hi⟩ := mem_flatMap.mp ha
    exact (hmem hi).1
  have hnodup : firsts.Nodup := by
    refine nodup_flatMap.mpr ⟨fun i _ => ?_, hparts.imp fun hne => ?_⟩
    · exact ((h.nodup.filter _).sublist (take_sublist _ _))
    · intro a hi hj
      exact hne ((hmem hi).2.symm.trans (hmem hj).2)
  have hsort : sortBy rank firsts = l.filter (· ∈ firsts) := by
    refine eq_of_strict (ranked_sortBy ?_) (h.filter _) ?_
    · refine hnodup.imp_of_mem fun ha hb hne heq => hne ?_
      exact h.eq_of_rank (hsub _ ha) (hsub _ hb) heq
    · refine (sortBy_perm rank firsts).trans ?_
      refine (perm_ext_iff_of_nodup hnodup (h.nodup.filter _)).mpr fun a => ?_
      rw [mem_filter, decide_eq_true_eq]
      exact ⟨fun ha => ⟨hsub a ha, ha⟩, fun ha => ha.2⟩
  -- none of the first `n` is left out by its part
  have hall : (l.take n).filter (· ∈ firsts) = l.take n := by
    refine filter_eq_self.mpr fun a ha => decide_eq_true ?_
    refine mem_flatMap.mpr ⟨whose a, hcover a (mem_of_mem_take ha), ?_⟩
    refine (prefix_filter_take _ n l).subset (mem_filter.mpr ⟨ha, decide_eq_true rfl⟩)
  have hsplit : l.filter (· ∈ firsts) = l.take n ++ (l.drop n).filter (· ∈ firsts) := by
    rw [← take_append_drop n l, filter_append, take_append_drop, hall]
  rw [hsort, hsplit]
  rcases Nat.le_total n l.length with hle | hle
  · rw [take_append_of_le_length (by rw [length_take]; omega), take_take, Nat.min_self]
  · rw [drop_of_length_le hle, filter_nil, append_nil, take_take, Nat.min_self]

/-- What of a list made of parts belongs to one of them. -/
theorem filter_flatMap_part {β ι : Type*} [DecidableEq ι] {whose : α → ι} {key : β → ι}
    {f : β → List α} {bs : List β} (hnodup : (bs.map key).Nodup)
    (hf : ∀ b ∈ bs, ∀ a ∈ f b, whose a = key b) {b : β} (hb : b ∈ bs) :
    (bs.flatMap f).filter (fun a => whose a = key b) = f b := by
  have hown : ∀ b ∈ bs, (f b).filter (fun a => whose a = key b) = f b := fun b hb =>
    filter_eq_self.mpr fun a ha => decide_eq_true (hf b hb a ha)
  have hother : ∀ b ∈ bs, ∀ c, key b ≠ c → (f b).filter (fun a => whose a = c) = [] := by
    intro b hb c hne
    refine filter_eq_nil_iff.mpr fun a ha heq => hne ?_
    rw [← hf b hb a ha]
    exact of_decide_eq_true heq
  induction bs with
  | nil => cases hb
  | cons c bs ih =>
    obtain ⟨hc, hnodup⟩ := nodup_cons.mp hnodup
    have hbs : ∀ {b}, b ∈ bs → b ∈ c :: bs := mem_cons_of_mem c
    rw [flatMap_cons, filter_append]
    rcases mem_cons.mp hb with rfl | hb
    · have hrest : (bs.flatMap f).filter (fun a => whose a = key b) = [] := by
        refine filter_eq_nil_iff.mpr fun a ha heq => hc ?_
        obtain ⟨b', hb', ha'⟩ := mem_flatMap.mp ha
        rw [← of_decide_eq_true heq, hf b' (hbs hb') a ha']
        exact List.mem_map_of_mem hb'
      rw [hown b mem_cons_self, hrest, append_nil]
    · have hne : key c ≠ key b := fun heq => hc (heq ▸ List.mem_map_of_mem hb)
      rw [hother c mem_cons_self _ hne, nil_append]
      exact ih hnodup (fun b hb => hf b (hbs hb)) hb (fun b hb => hown b (hbs hb))
        fun b hb => hother b (hbs hb)

/-! ## Page after page -/

@[simp] theorem past_none (a : α) : past rank none a = true := rfl

@[simp] theorem past_some (c a : α) : past rank (some c) a = true ↔ rank c < rank a := by
  rw [past, all_some, decide_eq_true_eq]

theorem behind_none (l : List α) : behind rank none l = l :=
  filter_eq_self.mpr fun a _ => past_none a

theorem filter_behind (p : α → Bool) (cursor : Option α) (l : List α) :
    (behind rank cursor l).filter p = behind rank cursor (l.filter p) := by
  rw [behind, behind, List.filter_filter, List.filter_filter]
  congr 1
  funext a
  exact Bool.and_comm _ _

theorem Ranked.behind (h : Ranked rank l) (cursor : Option α) :
    Ranked rank (Paging.behind rank cursor l) := h.filter _

/-- Behind an element of the list comes what follows it. -/
theorem behind_split {before after : List α} {c : α} (h : Ranked rank (before ++ c :: after)) :
    behind rank (some c) (before ++ c :: after) = after := by
  obtain ⟨-, hafter, hbefore⟩ := pairwise_append.mp h
  have hdrop : before.filter (past rank (some c)) = [] := by
    rw [filter_eq_nil_iff]
    intro a ha hlt
    exact lt_asymm (hbefore a ha c mem_cons_self) ((past_some c a).mp hlt)
  have hkeep : after.filter (past rank (some c)) = after :=
    filter_eq_self.mpr fun a ha => (past_some c a).mpr ((pairwise_cons.mp hafter).1 a ha)
  rw [behind, filter_append, hdrop, nil_append, filter_cons_of_neg, hkeep]
  rw [past_some]
  exact lt_irrefl _

/-- Where the cursor is the last element received, the page goes on where the last one
ended. -/
theorem behind_getLast {before after : List α} (h : Ranked rank (before ++ after)) :
    behind rank before.getLast? (before ++ after) = after := by
  rcases eq_nil_or_concat before with rfl | ⟨rest, c, rfl⟩
  · exact behind_none after
  · rw [concat_eq_append] at h ⊢
    rw [getLast?_append, append_assoc] at *
    exact behind_split h

/-- What is received begins with the first page. -/
theorem paging_prefix {page : Option α → List α} {k : ℕ} {cursor : Option α} {got : List α}
    (h : paging page k cursor = some got) : page cursor <+: got := by
  cases k with
  | zero => cases h
  | succ k =>
    rw [paging] at h
    split_ifs at h with hempty
    · rw [hempty]
      exact nil_prefix
    · obtain ⟨rest, -, rfl⟩ := map_eq_some_iff.mp h
      exact prefix_append _ _

/-- Pages of what comes behind the cursor, put together, are the list. -/
theorem paging_complete {page : Option α → List α} {n : ℕ} (hn : 0 < n) (h : Ranked rank l)
    (hpage : ∀ cursor : Option α, (∀ c ∈ cursor, c ∈ l) → page cursor = (behind rank cursor l).take n)
    {k : ℕ} (hk : l.length < k) : paging page k none = some l := by
  have hrest : ∀ (k : ℕ) (before after : List α), l = before ++ after → after.length < k →
      paging page k before.getLast? = some after := by
    intro k
    induction k with
    | zero =>
      intro before after _ hk
      exact absurd hk (Nat.not_lt_zero _)
    | succ k ih =>
      rintro before after rfl hk
      have hcursor : page before.getLast? = after.take n := by
        rw [hpage _ fun c hc => mem_append_left _ (mem_of_getLast? hc), behind_getLast h]
      rw [paging, hcursor]
      by_cases hempty : after.take n = []
      · rw [if_pos hempty]
        rcases take_eq_nil_iff.mp hempty with h0 | rfl
        · omega
        · rfl
      · rw [if_neg hempty]
        have hlast : (before ++ after.take n).getLast? = (after.take n).getLast? := by
          rw [getLast?_append_of_ne_nil _ hempty]
        have hdrop : (after.drop n).length < k := by
          have hpos : 0 < after.length := by
            rw [length_pos_iff]
            rintro rfl
            exact hempty take_nil
          rw [length_drop]
          omega
        rw [← hlast, ih (before ++ after.take n) (after.drop n)
          (by rw [append_assoc, take_append_drop]) hdrop, map_some,
          take_append_drop]
  exact hrest k [] l rfl hk

end Paging
