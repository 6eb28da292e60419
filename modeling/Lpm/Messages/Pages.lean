/-
Paging is complete: every row of every computer, once, in the order of the pages.

A page is the first rows behind the cursor in the one order of all rows, as long as no
computer is asked for fewer than the page takes. One computer gives at most `MAX_PAGE`; a
page of more, merged from several, may go on behind a row that its computer kept back.
-/
import Lpm.Messages.History

set_option autoImplicit false

open StableSort Paging

namespace Lpm.Messages

open List

/-- A row's place in the one order. -/
def rank (row : HistoryRow) : ℤᵒᵈ ×ₗ String ×ₗ ℤᵒᵈ :=
  toLex (OrderDual.toDual row.at_, toLex (machine_key row, OrderDual.toDual row.seq))

theorem rank_lt_iff {a b : HistoryRow} : rank a < rank b ↔ b.at_ < a.at_ ∨
    a.at_ = b.at_ ∧ (machine_key a < machine_key b ∨
      machine_key a = machine_key b ∧ b.seq < a.seq) := by
  simp only [rank, Prod.Lex.toLex_lt_toLex, OrderDual.toDual_lt_toDual, OrderDual.toDual_inj]

theorem page_order_lt_iff {a b : HistoryRow} : page_order a b = .lt ↔ rank a < rank b := by
  rw [rank_lt_iff, page_order]
  simp only [Ordering.then_eq_lt, Ordering.then_eq_eq, compare_lt_iff_lt, compare_eq_iff_eq]
  constructor
  · rintro ((hat | ⟨hat, hkey⟩) | ⟨⟨hat, hkey⟩, hseq⟩)
    · exact .inl hat
    · exact .inr ⟨hat.symm, .inl hkey⟩
    · exact .inr ⟨hat.symm, .inr ⟨hkey, hseq⟩⟩
  · rintro (hat | ⟨hat, hkey | ⟨hkey, hseq⟩⟩)
    · exact .inl (.inl hat)
    · exact .inl (.inr ⟨hat.symm, hkey⟩)
    · exact .inr ⟨⟨hat.symm, hkey⟩, hseq⟩

theorem page_order_swap (a b : HistoryRow) : (page_order a b).swap = page_order b a := by
  rw [page_order, page_order, Ordering.swap_then, Ordering.swap_then,
    ← Std.OrientedOrd.eq_swap, ← Std.OrientedOrd.eq_swap, ← Std.OrientedOrd.eq_swap]

theorem page_order_isLE_iff {a b : HistoryRow} : (page_order a b).isLE = true ↔ rank a ≤ rank b := by
  rw [← not_lt, ← page_order_lt_iff, ← page_order_swap, Ordering.isLE_iff_ne_gt,
    Ordering.swap_eq_gt]

/-- `sort_by(page_order)`. -/
theorem mergeSort_page_order (rows : List HistoryRow) :
    rows.mergeSort (fun a b => (page_order a b).isLE) = sortBy rank rows := by
  rw [sortBy]
  congr 1
  funext a b
  rw [Bool.eq_iff_iff, page_order_isLE_iff, decide_eq_true_iff]

/-! ## One computer's page -/

section
variable {c : Computer} {input : QueryInput} {r : Record}

/-- A row as it is received. -/
def Computer.shown (c : Computer) (r : Record) : HistoryRow := c.see r.row

@[simp] theorem machine_key_shown : machine_key (c.shown r) = c.key := by
  unfold Computer.shown Computer.see
  split_ifs with hkey
  · exact hkey.symm
  · rfl

@[simp] theorem shown_at : (c.shown r).at_ = r.at_ := by
  unfold Computer.shown Computer.see
  split_ifs <;> rfl

@[simp] theorem shown_seq : (c.shown r).seq = r.seq := by
  unfold Computer.shown Computer.see
  split_ifs <;> rfl

theorem rank_shown_lt_iff {a b : Record} : rank (c.shown a) < rank (c.shown b) ↔ newest a < newest b := by
  rw [rank_lt_iff, newest, newest, Prod.Lex.toLex_lt_toLex]
  simp

/-- The cursor of a computer's own query stands where the row received last does, whichever
computer that was of. -/
theorem cursor_clause_iff (hpos : 0 < r.seq) (hmax : r.seq < i64_max) (row : HistoryRow) :
    cursor_clause (input_for (input.after (some row)) c.key) r = true ↔
      rank row < rank (c.shown r) := by
  rw [rank_lt_iff, machine_key_shown, shown_at, shown_seq]
  have hkey : (input.after (some row)).cursor_machine.getD LOCAL = machine_key row := rfl
  unfold cursor_clause input_for cursor_for
  rw [hkey]
  dsimp only [QueryInput.after, Option.map_some]
  have hmin : ¬r.seq < i64_min := by
    rw [i64_min]
    omega
  rcases hcmp : compare c.key (machine_key row) with _ | _ | _
  · have hlt := compare_lt_iff_lt.mp hcmp
    simp [hmin, hlt.ne', hlt.not_gt]
  · have heq := compare_eq_iff_eq.mp hcmp
    simp [heq, @eq_comm _ r.at_]
  · have hgt := compare_gt_iff_gt.mp hcmp
    simp [hmax, hgt, @eq_comm _ r.at_]

end

/-! ## All computers' page -/

section
variable {w : World} {input : QueryInput} {c : Computer}

theorem asked_keys : ((w.asked input).map Computer.key).Nodup := by
  unfold World.asked
  split_ifs
  · exact nodup_singleton _
  · rw [map_cons, List.map_map]
    exact nodup_cons.mpr ⟨w.peers.named, w.peers.distinct⟩

/-- Every row the query is for, in the order of the pages. -/
def World.all (w : World) (input : QueryInput) : List HistoryRow := sortBy rank (w.rows input)

theorem World.rows_eq : w.rows input = (w.asked input).flatMap fun c =>
    (c.table.rows.filter fun r => wanted (input_for input c.key) r).map c.shown := by
  simp only [World.rows, List.map_map]
  rfl

theorem rows_part (hc : c ∈ w.asked input) : (w.rows input).filter (fun a => machine_key a = c.key) =
    (c.table.rows.filter fun r => wanted (input_for input c.key) r).map c.shown := by
  rw [World.rows_eq]
  refine filter_flatMap_part asked_keys (fun c _ a ha => ?_) hc
  obtain ⟨r, -, rfl⟩ := List.mem_map.mp ha
  exact machine_key_shown

theorem ranked_all : Ranked rank (w.all input) := by
  refine ranked_sortBy ?_
  rw [World.rows_eq]
  refine pairwise_flatMap.mpr ⟨fun c _ => ?_, ?_⟩
  · refine pairwise_map.mpr ((c.table.distinct.filter _).imp fun hne heq => hne ?_)
    have hseq := congrArg (fun key => OrderDual.ofDual (ofLex (ofLex key).2).2) heq
    rwa [rank, rank, shown_seq, shown_seq] at hseq
  · refine (pairwise_map.mp asked_keys).imp fun hne a ha b hb heq => hne ?_
    obtain ⟨r, -, rfl⟩ := List.mem_map.mp ha
    obtain ⟨t, -, rfl⟩ := List.mem_map.mp hb
    have hkey := congrArg (fun key => (ofLex (ofLex key).2).1) heq
    rwa [rank, rank, machine_key_shown, machine_key_shown] at hkey

/-- The order in the table is the order of the pages. -/
theorem ranked_shown {rows : List Record} (h : rows.Pairwise fun a b => a.seq ≠ b.seq) :
    Ranked rank ((sortBy newest rows).map c.shown) := by
  have hnewest : Ranked newest (sortBy newest rows) := by
    refine ranked_sortBy (h.imp fun hne heq => hne ?_)
    exact congrArg (fun key => OrderDual.ofDual (ofLex key).2) heq
  exact pairwise_map.mpr (hnewest.imp rank_shown_lt_iff.mpr)

/-- What a computer gives for a page: the first of its rows behind the row received last. -/
theorem query_part (hc : c ∈ w.asked input) (cursor : Option HistoryRow) :
    (query_local c.table (input_for (input.after cursor) c.key)).map c.see =
      ((behind rank cursor (w.all input)).filter fun a => machine_key a = c.key).take
        (local_limit input.limit) := by
  have hclause : ∀ r ∈ c.table.rows, cursor_clause (input_for (input.after cursor) c.key) r =
      past rank cursor (c.shown r) := by
    intro r hr
    cases cursor with
    | none => rfl
    | some row =>
      rw [Bool.eq_iff_iff, past_some]
      exact cursor_clause_iff (c.table.positive r hr) (c.table.below_max r hr) row
  have hrows : c.table.rows.filter (fun r => wanted (input_for (input.after cursor) c.key) r &&
      cursor_clause (input_for (input.after cursor) c.key) r) =
      (c.table.rows.filter fun r => wanted (input_for input c.key) r).filter
        (past rank cursor ∘ c.shown) := by
    rw [List.filter_filter]
    refine filter_congr fun r hr => ?_
    rw [hclause r hr, Bool.and_comm]
    rfl
  have hpart : (sortBy newest (c.table.rows.filter fun r =>
      wanted (input_for (input.after cursor) c.key) r &&
        cursor_clause (input_for (input.after cursor) c.key) r)).map c.shown =
      (behind rank cursor (w.all input)).filter fun a => machine_key a = c.key := by
    refine eq_of_strict (ranked_shown (c.table.distinct.filter _))
      ((ranked_all.behind cursor).filter _) ?_
    have hall := ((sortBy_perm rank (w.rows input)).filter fun a => machine_key a = c.key).filter
      (past rank cursor)
    rw [rows_part hc, List.filter_map] at hall
    rw [hrows, filter_behind]
    exact ((sortBy_perm _ _).map _).trans hall.symm
  rw [query_local, List.map_map, map_take]
  exact congrArg (List.take _) hpart

/-- What the computers asked give for a page, merged. -/
def World.merged (w : World) (input : QueryInput) : List HistoryRow :=
  sortBy rank ((w.asked input).flatMap fun c =>
    (query_local c.table (input_for input c.key)).map c.see)

theorem query_eq : w.query input = (w.merged input).take (max input.limit 1).toNat := by
  rw [World.query, mergeSort_page_order, World.merged]

/-- As many rows as a computer gives are the first of what comes behind the row received
last. -/
theorem merged_take (w : World) (input : QueryInput) (cursor : Option HistoryRow) :
    (w.merged (input.after cursor)).take (local_limit input.limit) =
      (behind rank cursor (w.all input)).take (local_limit input.limit) := by
  have hcover : ∀ a ∈ behind rank cursor (w.all input),
      machine_key a ∈ (w.asked input).map Computer.key := by
    intro a ha
    have hrows := (sortBy_perm _ _).subset (mem_of_mem_filter ha)
    rw [World.rows_eq] at hrows
    obtain ⟨c, hc, ha⟩ := mem_flatMap.mp hrows
    obtain ⟨r, -, rfl⟩ := List.mem_map.mp ha
    rw [machine_key_shown]
    exact List.mem_map_of_mem hc
  rw [← take_sortBy_parts (ranked_all.behind cursor) machine_key asked_keys hcover]
  congr 1
  rw [World.merged, flatMap_map]
  exact congrArg _ (flatMap_congr fun c hc => query_part hc cursor)

theorem length_query_local (table : Table) (input : QueryInput) :
    (query_local table input).length ≤ local_limit input.limit := by
  rw [query_local, length_map]
  exact length_take_le _ _

theorem length_merged_alone (h : w.peers.list = []) :
    (w.merged input).length ≤ local_limit input.limit := by
  have hasked : w.asked input = [⟨LOCAL, "", w.here⟩] := by
    rw [World.asked, h, map_nil, ite_self]
  rw [World.merged, (sortBy_perm _ _).length_eq, hasked, flatMap_singleton, length_map]
  exact length_query_local _ _

/-- A page is the first rows behind the one received last, where it is no longer than what a
computer gives or no other computer is asked. -/
theorem query_behind (h : input.limit ≤ MAX_PAGE ∨ w.peers.list = []) (cursor : Option HistoryRow) :
    w.query (input.after cursor) =
      (behind rank cursor (w.all input)).take (local_limit input.limit) := by
  rw [query_eq, ← merged_take]
  change _ = (w.merged (input.after cursor)).take (local_limit (input.after cursor).limit)
  rcases h with hle | halone
  · have hlimit : (max (input.after cursor).limit 1).toNat =
        local_limit (input.after cursor).limit := by
      change (max input.limit 1).toNat = local_limit input.limit
      rw [local_limit, min_eq_left hle, max_comm]
    rw [hlimit]
  · have hlen := @length_merged_alone w (input.after cursor) halone
    rw [take_of_length_le hlen, take_of_length_le (hlen.trans ?_)]
    rw [local_limit]
    omega

/-! ## All pages -/

/-- The rows received until a page comes empty. -/
def World.received (w : World) (input : QueryInput) (k : ℕ) : Option (List HistoryRow) :=
  paging (fun cursor => w.query (input.after cursor)) k none

/-- Paging comes to an end with every row once and in the order of the pages. -/
def Complete (w : World) (input : QueryInput) : Prop :=
  ∃ got : List HistoryRow, (∀ k, (w.rows input).length < k → w.received input k = some got) ∧
    got.Perm (w.rows input) ∧ got.Pairwise fun a b => page_order a b = .lt

theorem complete_of_query (h : input.limit ≤ MAX_PAGE ∨ w.peers.list = []) : Complete w input := by
  refine ⟨w.all input, fun k hk => ?_, sortBy_perm _ _, ranked_all.imp page_order_lt_iff.mpr⟩
  have hpos : 0 < local_limit input.limit := by
    rw [local_limit, MAX_PAGE]
    omega
  refine paging_complete hpos ranked_all (fun cursor _ => query_behind h cursor) ?_
  rwa [World.all, (sortBy_perm _ _).length_eq]

end

/-! ## Pages longer than a computer gives -/

def plain_row (seq at_ : ℤ) : Record where
  seq := seq
  id := ""
  text := ""
  project_name := ""
  terminal_id := ""
  terminal_label := ""
  at_ := at_
  favorite := false
  folder_id := none
  is_draft := false
  images := "\x7b\x7d"

/-- Every row of every computer. -/
def everything (limit : ℤ) : QueryInput where
  scope := "all"
  terminal_id := ""
  project_name := ""
  terminal_label := ""
  collection := "all"
  search := ""
  cursor_at := none
  cursor_seq := none
  limit := limit
  machines := true
  cursor_machine := none

/-- So many rows of one moment. -/
def rows_at (count : ℕ) (at_ : ℤ) : List Record :=
  (List.range count).map fun n : ℕ => plain_row (n + 1) at_

theorem mem_rows_at {count : ℕ} {at_ : ℤ} {r : Record} (h : r ∈ rows_at count at_) :
    0 < r.seq ∧ r.seq ≤ count ∧ r.at_ = at_ := by
  obtain ⟨n, hn, rfl⟩ := List.mem_map.mp h
  have hlt := mem_range.mp hn
  refine ⟨Int.natCast_succ_pos n, ?_, rfl⟩
  change (n : ℤ) + 1 ≤ count
  omega

def table_at (count : ℕ) (at_ : ℤ) (h : count < 1000) : Table where
  rows := rows_at count at_
  distinct := by
    refine pairwise_map.mpr (nodup_range.imp fun {m n} hne heq => hne ?_)
    have hseq : (m : ℤ) + 1 = n + 1 := heq
    omega
  positive r hr := (mem_rows_at hr).1
  below_max r hr := by
    have hle := (mem_rows_at hr).2.1
    rw [i64_max]
    omega

theorem table_at_rows {count : ℕ} {at_ : ℤ} (h : count < 1000) :
    (table_at count at_ h).rows = rows_at count at_ := rfl

/-- This computer has one row more than it gives at once, and the first connected one an older
row. -/
def crowded (peers : Peers) (slug : String) : World where
  here := table_at 501 1 (by decide)
  peers := peers
  table key := if key = slug then table_at 1 0 (by decide) else table_at 0 0 (by decide)

section
variable {peers : Peers} {p : String × String} {ps : List (String × String)} {limit : ℤ}

theorem wanted_everything {key : String} {r : Record} :
    wanted (input_for (everything limit) key) r = true := rfl

theorem query_local_empty {table : Table} (h : table.rows = []) (input : QueryInput) :
    query_local table input = [] := by
  rw [query_local, h, filter_nil, sortBy, mergeSort_nil, take_nil, map_nil]

/-- The computers asked: this one, the one with a row, and others with none. -/
theorem crowded_asked (hpeers : peers.list = p :: ps) : ∃ rest : List Computer,
    (crowded peers p.1).asked (everything limit) =
      ⟨LOCAL, "", table_at 501 1 (by decide)⟩ :: ⟨p.1, p.2, table_at 1 0 (by decide)⟩ :: rest ∧
    ∀ c ∈ rest, c.table.rows = [] := by
  refine ⟨ps.map fun q => ⟨q.1, q.2, (crowded peers p.1).table q.1⟩, ?_, ?_⟩
  · have htable : (crowded peers p.1).table p.1 = table_at 1 0 (by decide) := if_pos rfl
    change _ :: peers.list.map _ = _
    rw [hpeers, map_cons, htable]
    rfl
  · intro c hc
    obtain ⟨q, hq, rfl⟩ := List.mem_map.mp hc
    have hdistinct := peers.distinct
    rw [hpeers, map_cons, nodup_cons] at hdistinct
    have hne : q.1 ≠ p.1 := fun heq => hdistinct.1 (heq ▸ List.mem_map_of_mem hq)
    have htable : (crowded peers p.1).table q.1 = table_at 0 0 (by decide) := if_neg hne
    change ((crowded peers p.1).table q.1).rows = []
    rw [htable]
    rfl

theorem length_crowded_rows (hpeers : peers.list = p :: ps) :
    ((crowded peers p.1).rows (everything limit)).length = 502 := by
  obtain ⟨rest, hasked, hrest⟩ := @crowded_asked peers p ps limit hpeers
  have hnone : rest.flatMap (fun c => (c.table.rows.filter fun r =>
      wanted (input_for (everything limit) c.key) r).map c.shown) = [] := by
    refine flatMap_eq_nil_iff.mpr fun c hc => ?_
    rw [hrest c hc]
    rfl
  rw [World.rows_eq, hasked, flatMap_cons, flatMap_cons, hnone]
  simp only [wanted_everything, filter_true, length_append, length_map,
    length_nil, table_at, rows_at, length_range]

/-- The row of the connected computer, as it is received. -/
def older (p : String × String) : HistoryRow :=
  Computer.shown ⟨p.1, p.2, table_at 1 0 (by decide)⟩ (plain_row 1 0)

/-- The first page has as many rows of this computer as it gives, and the older row. -/
theorem crowded_merged (hpeers : peers.list = p :: ps) (hlimit : MAX_PAGE < limit) :
    ((crowded peers p.1).merged (everything limit)).length ≤ 501 ∧
      older p ∈ (crowded peers p.1).merged (everything limit) := by
  obtain ⟨rest, hasked, hrest⟩ := @crowded_asked peers p ps limit hpeers
  have hlocal : local_limit limit = 500 := by
    rw [local_limit, min_eq_right hlimit.le]
    rfl
  have hnone : rest.flatMap (fun c => (query_local c.table (input_for (everything limit) c.key)).map
      c.see) = [] := by
    refine flatMap_eq_nil_iff.mpr fun c hc => ?_
    rw [query_local_empty (hrest c hc), map_nil]
  have hone : query_local (table_at 1 0 (by decide)) (input_for (everything limit) p.1) =
      [(plain_row 1 0).row] := by
    have hrows : (table_at 1 0 (by decide)).rows = [plain_row 1 0] := rfl
    change ((sortBy newest (List.filter _ (table_at 1 0 (by decide)).rows)).take
      (local_limit limit)).map Record.row = _
    rw [hrows, filter_cons_of_pos (by rfl), filter_nil, sortBy, mergeSort_singleton,
      hlocal]
    rfl
  have hhere : (query_local (table_at 501 1 (by decide)) (input_for (everything limit) LOCAL)).length
      ≤ 500 := (length_query_local _ _).trans hlocal.le
  rw [World.merged, hasked, flatMap_cons, flatMap_cons, hnone, hone]
  refine ⟨?_, (sortBy_perm _ _).mem_iff.mpr ?_⟩
  · rw [(sortBy_perm _ _).length_eq, length_append, length_map]
    exact Nat.succ_le_succ hhere
  · exact mem_append_right _ mem_cons_self

/-- Behind the older row there is none. -/
theorem rank_le_older (hpeers : peers.list = p :: ps) {row : HistoryRow}
    (h : row ∈ (crowded peers p.1).rows (everything limit)) : rank row ≤ rank (older p) := by
  obtain ⟨rest, hasked, hrest⟩ := @crowded_asked peers p ps limit hpeers
  rw [World.rows_eq, hasked] at h
  obtain ⟨c, hc, hrow⟩ := mem_flatMap.mp h
  obtain ⟨r, hr, rfl⟩ := List.mem_map.mp hrow
  have hr := mem_of_mem_filter hr
  rcases mem_cons.mp hc with rfl | hc
  · dsimp only at hr
    rw [table_at_rows] at hr
    have hat : r.at_ = 1 := (mem_rows_at hr).2.2
    refine (rank_lt_iff.mpr (.inl ?_)).le
    rw [older, shown_at, shown_at, hat]
    exact Int.zero_lt_one
  · rcases mem_cons.mp hc with rfl | hc
    · have hone : r = plain_row 1 0 := mem_singleton.mp hr
      rw [hone]
      exact le_rfl
    · rw [hrest c hc] at hr
      cases hr

theorem crowded_incomplete (hpeers : peers.list = p :: ps) (hlimit : MAX_PAGE < limit) :
    ¬Complete (crowded peers p.1) (everything limit) := by
  rintro ⟨got, hgot, hperm, horder⟩
  obtain ⟨hlen, hold⟩ := @crowded_merged peers p ps limit hpeers hlimit
  have hrows := @length_crowded_rows peers p ps limit hpeers
  have hpage : (crowded peers p.1).merged (everything limit) <+: got := by
    have hfirst := paging_prefix (hgot _ (Nat.lt_succ_self _))
    rwa [query_eq, take_of_length_le] at hfirst
    refine hlen.trans ?_
    have : MAX_PAGE < limit := hlimit
    change 501 ≤ (max limit 1).toNat
    rw [MAX_PAGE] at this
    omega
  obtain ⟨rest, rfl⟩ := hpage
  -- the row kept back would have to come behind the oldest
  have hrest : rest = [] := by
    refine eq_nil_iff_forall_not_mem.mpr fun row hrow => ?_
    have hlt := page_order_lt_iff.mp ((pairwise_append.mp horder).2.2 _ hold row hrow)
    have hmem := hperm.subset (mem_append_right _ hrow)
    exact absurd (rank_le_older hpeers hmem) (not_le.mpr hlt)
  have hall := hperm.length_eq
  rw [hrest, append_nil, hrows] at hall
  omega

end

/-- Paging over this computer and these connected ones is complete whatever their rows are, for
the limits up to what a computer gives; and for every limit where no other is connected. -/
theorem complete_iff (limit : ℤ) (peers : Peers) :
    (∀ (here : Table) (table : String → Table) (input : QueryInput), input.limit = limit →
      Complete ⟨here, peers, table⟩ input) ↔ limit ≤ MAX_PAGE ∨ peers.list = [] := by
  constructor
  · intro h
    by_contra hnot
    rw [not_or, not_le] at hnot
    obtain ⟨p, ps, hpeers⟩ := exists_cons_of_ne_nil hnot.2
    exact crowded_incomplete hpeers hnot.1 (h _ _ (everything limit) rfl)
  · rintro h here table input rfl
    exact complete_of_query h

/-- A page of 600 over two computers jumps over a row. -/
theorem page_of_600_incomplete : ¬Complete
    (crowded ⟨[("0badcafe", "desk")], by decide, by decide⟩ "0badcafe") (everything 600) :=
  crowded_incomplete (p := ("0badcafe", "desk")) rfl (by decide)

end Lpm.Messages
