/-
The pane ids that reconnected tabs left behind: what `move_pane` of `status.rs` remembers, and
`current_pane`, which a report that still names an old id is looked up by.

Every id in the table points right at the pane's present one: a move points the ids again that
pointed at the id it leaves. The table is emptied by the move that finds it full, and then the
ids left behind before that move lead nowhere any more. A history of the moves stands beside
the table to say where they should lead.
-/
import Lpm.Lib.Keyed
import Lpm.Lib.Transition

set_option autoImplicit false

open Transition

namespace Lpm.Status

open List

/-! ## The table -/

/-- How many reconnects the store remembers. -/
def MOVED_CAP : ℕ := 256

/-- An id that a pane left behind, and the one it has instead. -/
structure Move where
  old : String
  new : String
  deriving DecidableEq

variable (moved : List Move) (old_pane_id new_pane_id : String)

def remember_move : List Move :=
  let moved := if MOVED_CAP ≤ moved.length then [] else moved
  let moved := moved.map fun m => if m.new = old_pane_id then { m with new := new_pane_id } else m
  Keyed.put Move.old moved ⟨old_pane_id, new_pane_id⟩

/-- What `move_pane` does to the table. -/
def move_pane : List Move :=
  if old_pane_id = "" ∨ old_pane_id = new_pane_id then moved
  else remember_move moved old_pane_id new_pane_id

/-- The pane a report naming `pane_id` belongs to now. -/
def current_pane (pane_id : String) : String :=
  ((Keyed.get Move.old moved pane_id).map Move.new).getD pane_id

/-! ## Runs -/

/-- Where a pane is after some moves, that had an id before them. -/
def present (history : List Move) (id : String) : String :=
  history.foldl (fun id m => if id = m.old then m.new else id) id

/-- A pane moves from the id it has to one that no pane had yet. -/
structure FirstUse (history : List Move) (m : Move) : Prop where
  named : m.old ≠ ""
  other : m.new ≠ m.old
  has : m.old ∉ history.map Move.old
  unused : m.new ∉ history.map Move.old ∧ m.new ∉ history.map Move.new

structure Tabs where
  moved : List Move
  history : List Move

/-- Every run of moves. -/
def tabs : System Tabs Move where
  init s := s = ⟨[], []⟩
  step s m s' := FirstUse s.history m ∧
    s' = ⟨move_pane s.moved m.old m.new, s.history ++ [m]⟩

/-- An id of one of the last moves, or one that its pane had before. -/
def Recent (history : List Move) (id : String) : Prop :=
  ∃ before m after, history = before ++ m :: after ∧ after.length < MOVED_CAP ∧
    (id = m.new ∨ present before id = m.old)

/-- A report that names an id of a moved pane reaches the pane. -/
structure Found (s : Tabs) : Prop where
  recent : ∀ id, Recent s.history id → current_pane s.moved id = present s.history id
  stays : ∀ id, id ∉ s.history.map Move.old → current_pane s.moved id = id
  twice : ∀ id, current_pane s.moved (current_pane s.moved id) = current_pane s.moved id

/-- The table has room for the id that a move leaves behind. -/
def Room (s : Tabs) (_ : Move) : Prop := s.moved.length < MOVED_CAP

section
variable {moved : List Move} {history : List Move} {m : Move} {s s' : Tabs} {id : String}

/-! ## One move -/

theorem present_concat : present (history ++ [m]) id
    = if present history id = m.old then m.new else present history id := foldl_append

theorem current_pane_of_not_mem (h : id ∉ moved.map Move.old) : current_pane moved id = id := by
  rw [current_pane, Keyed.get_eq_none_iff.mpr h]
  rfl

theorem FirstUse.move_pane_eq (h : FirstUse history m) :
    move_pane moved m.old m.new = remember_move moved m.old m.new :=
  if_neg fun hor => hor.elim h.named fun heq => h.other heq.symm

/-- With room in the table, an id leads where it led, and on from the id that is left. -/
theorem current_pane_remember (hroom : moved.length < MOVED_CAP) (hold : m.old ∉ moved.map Move.old) :
    current_pane (remember_move moved m.old m.new) id
      = if current_pane moved id = m.old then m.new else current_pane moved id := by
  rw [remember_move, if_neg (Nat.not_le.mpr hroom), current_pane, Keyed.get_put]
  by_cases hid : m.old = id
  · subst hid
    rw [if_pos rfl, current_pane_of_not_mem hold, if_pos rfl]
    rfl
  · rw [if_neg hid, Keyed.get_map fun m' => by split_ifs <;> rfl, current_pane]
    cases hget : Keyed.get Move.old moved id with
    | none => exact (if_neg (Ne.symm hid)).symm
    | some m' =>
      dsimp only [Option.map_some, Option.getD_some]
      split_ifs
      · rfl
      · rfl

/-- A table that is full is emptied. -/
theorem remember_full (hfull : MOVED_CAP ≤ moved.length) :
    remember_move moved m.old m.new = [m] := by
  rw [remember_move, if_pos hfull]
  rfl

/-! ## What holds of the table -/

/-- The ids in the table were left behind, and none that they point at was. -/
structure Pointing (s : Tabs) : Prop where
  left : ∀ m ∈ s.moved, m.old ∈ s.history.map Move.old
  here : ∀ m ∈ s.moved, m.new ∉ s.history.map Move.old
  fresh : ∀ before m after, s.history = before ++ m :: after → FirstUse before m

theorem Pointing.step (h : Pointing s) (hstep : tabs.step s m s') : Pointing s' := by
  obtain ⟨hfresh, rfl⟩ := hstep
  rw [hfresh.move_pane_eq]
  have hlater : ∀ id, id ∉ s.history.map Move.old → id ≠ m.old →
      id ∉ (s.history ++ [m]).map Move.old := by
    intro id hid hne
    rw [map_append, mem_append, not_or]
    exact ⟨hid, fun hin => hne (mem_singleton.mp hin)⟩
  have hnew : m.new ∉ (s.history ++ [m]).map Move.old := hlater _ hfresh.unused.1 hfresh.other
  -- an entry is the new one, or one of before that may have been pointed again
  have hentry : ∀ e ∈ remember_move s.moved m.old m.new, e = m ∨ ∃ e' ∈ s.moved,
      e = if e'.new = m.old then { e' with new := m.new } else e' := by
    intro e he
    rw [remember_move, Keyed.put, mem_append, mem_singleton] at he
    rcases he with he | rfl
    · obtain ⟨e', he', rfl⟩ := List.mem_map.mp (mem_filter.mp he).1
      split_ifs at he'
      · exact absurd he' not_mem_nil
      · exact Or.inr ⟨e', he', rfl⟩
    · exact Or.inl rfl
  refine ⟨?_, ?_, ?_⟩
  · intro e he
    rw [map_append, mem_append]
    rcases hentry e he with rfl | ⟨e', he', rfl⟩
    · exact Or.inr (mem_singleton_self _)
    · refine Or.inl ?_
      split_ifs
      · exact h.left e' he'
      · exact h.left e' he'
  · intro e he
    rcases hentry e he with rfl | ⟨e', he', rfl⟩
    · exact hnew
    · split_ifs with hpoints
      · exact hnew
      · exact hlater _ (h.here e' he') hpoints
  · intro before m' after hsplit
    rcases eq_nil_or_concat after with rfl | ⟨after', last, rfl⟩
    · obtain ⟨rfl, hlast⟩ := append_inj' hsplit rfl
      obtain rfl := (List.cons.inj hlast).1
      exact hfresh
    · have hsplit' : s.history ++ [m] = (before ++ m' :: after') ++ [last] := by
        refine hsplit.trans ?_
        rw [concat_eq_append, append_assoc, cons_append]
      exact h.fresh before m' after' (append_inj' hsplit' rfl).1

theorem Pointing.start : Pointing ⟨[], []⟩ := by
  refine ⟨fun m hm => absurd hm not_mem_nil, fun m hm => absurd hm not_mem_nil, ?_⟩
  intro before m after hsplit
  exact absurd hsplit.symm (append_ne_nil_of_right_ne_nil _ (cons_ne_nil _ _))

theorem Pointing.not_key (h : Pointing s) (hid : id ∉ s.history.map Move.old) :
    id ∉ s.moved.map Move.old := by
  rw [List.mem_map]
  rintro ⟨m, hm, rfl⟩
  exact hid (h.left m hm)

/-- A present id stands for itself. -/
theorem Pointing.stays (h : Pointing s) (hid : id ∉ s.history.map Move.old) :
    current_pane s.moved id = id := current_pane_of_not_mem (h.not_key hid)

theorem Pointing.twice (h : Pointing s) (id : String) :
    current_pane s.moved (current_pane s.moved id) = current_pane s.moved id := by
  cases hget : Keyed.get Move.old s.moved id with
  | none =>
    have hself : current_pane s.moved id = id := by
      rw [current_pane, hget]
      rfl
    rw [hself, hself]
  | some m =>
    have hcurrent : current_pane s.moved id = m.new := by
      rw [current_pane, hget]
      rfl
    rw [hcurrent]
    exact h.stays (h.here m (Keyed.mem_of_get hget))

/-! ## Runs -/

/-- Every id leads to its pane's present one. -/
def Leading (s : Tabs) : Prop := ∀ id, current_pane s.moved id = present s.history id

theorem Leading.step (h : Leading s) (hpointing : Pointing s) (hroom : Room s m)
    (hstep : tabs.step s m s') : Leading s' := by
  obtain ⟨hfresh, rfl⟩ := hstep
  intro id
  rw [hfresh.move_pane_eq, current_pane_remember hroom (hpointing.not_key hfresh.has), h id,
    present_concat]

/-- In every run whose moves all find room in the table, a report that names an id of a moved
pane reaches the pane. -/
theorem moved_panes_are_found (h : Reachable (tabs.when Room) s) : Found s := by
  have hboth : Pointing s ∧ Leading s := by
    refine h.invariant (P := fun s => Pointing s ∧ Leading s) ?_ ?_
    · rintro s rfl
      exact ⟨Pointing.start, fun id => rfl⟩
    · intro s m s' hs hstep
      exact ⟨hs.1.step hstep.2, hs.2.step hs.1 hstep.1 hstep.2⟩
  exact ⟨fun id _ => hboth.2 id, fun id => hboth.1.stays, hboth.1.twice⟩

/-- And the move that finds none makes the table forget the move right before it. -/
theorem full_table_forgets (h : Reachable tabs s) (hfull : ¬ Room s m) (hstep : tabs.step s m s') :
    ¬ Found s' := by
  have hpointing : Pointing s := by
    refine h.invariant ?_ fun s m s' hs hstep => hs.step hstep
    rintro s rfl
    exact Pointing.start
  have hfull : MOVED_CAP ≤ s.moved.length := Nat.not_lt.mp hfull
  obtain ⟨hfresh, rfl⟩ := hstep
  obtain ⟨e, he⟩ := exists_mem_of_length_pos (show 0 < s.moved.length from
    Nat.lt_of_lt_of_le (by decide) hfull)
  rcases eq_nil_or_concat s.history with hnil | ⟨before, last, hlast⟩
  · have hin := hpointing.left e he
    rw [hnil] at hin
    exact absurd hin not_mem_nil
  · rw [concat_eq_append] at hlast
    have hfresh' : FirstUse before last := hpointing.fresh before last [] hlast
    have hlastmem : last ∈ s.history := by
      rw [hlast]
      exact mem_append_right _ (mem_singleton_self _)
    intro hfound
    -- the id that was left by the move before leads nowhere
    have hcurrent : current_pane [m] last.old = last.old := by
      refine current_pane_of_not_mem fun hin => hfresh.has ?_
      rw [← mem_singleton.mp hin]
      exact List.mem_map_of_mem hlastmem
    have hbefore : present before last.old = last.old := by
      have hstay : ∀ history : List Move, last.old ∉ history.map Move.old →
          present history last.old = last.old := by
        intro history
        induction history with
        | nil => exact fun _ => rfl
        | cons m history ih =>
          rw [map_cons, mem_cons, not_or]
          rintro ⟨hne, hrest⟩
          rw [present, foldl_cons, if_neg hne]
          exact ih hrest
      exact hstay before hfresh'.has
    have hnow := hfound.recent last.old ⟨before, last, [m], by rw [hlast, append_assoc]; rfl,
      show 1 < MOVED_CAP by decide, Or.inr hbefore⟩
    dsimp only at hnow
    rw [hfresh.move_pane_eq, remember_full hfull, hcurrent, present_concat, hlast, present_concat,
      hbefore, if_pos rfl] at hnow
    by_cases hon : last.new = m.old
    · rw [if_pos hon] at hnow
      refine hfresh.unused.1 ?_
      rw [← hnow]
      exact List.mem_map_of_mem hlastmem
    · rw [if_neg hon] at hnow
      exact hfresh'.other hnow.symm

end

/-! ## A tab that reconnects again and again -/

variable (n : ℕ)

/-- The ids of a tab, in their order. -/
def pane_name : String := String.ofList (List.replicate (n + 1) 'p')

theorem pane_name_inj {n k : ℕ} (h : pane_name n = pane_name k) : n = k := by
  have hlist := congrArg (fun s => s.toList.length) h
  simpa [pane_name] using hlist

/-- The tab after `n` reconnects. -/
def reconnected : Tabs where
  moved := (List.range n).map fun k => ⟨pane_name k, pane_name n⟩
  history := (List.range n).map fun k => ⟨pane_name k, pane_name (k + 1)⟩

theorem reconnected_fresh :
    FirstUse (reconnected n).history ⟨pane_name n, pane_name (n + 1)⟩ := by
  have hne : ∀ k ∈ List.range n, k ≠ n ∧ k ≠ n + 1 := by
    intro k hk
    have := mem_range.mp hk
    omega
  refine ⟨?_, fun h => absurd (pane_name_inj h) (by omega), ?_, ?_, ?_⟩
  · intro h
    have hlist := congrArg (fun s => s.toList.length) h
    simp [pane_name] at hlist
  · rw [reconnected, List.map_map, List.mem_map]
    rintro ⟨k, hk, heq⟩
    exact (hne k hk).1 (pane_name_inj heq)
  · rw [reconnected, List.map_map, List.mem_map]
    rintro ⟨k, hk, heq⟩
    exact (hne k hk).2 (pane_name_inj heq)
  · rw [reconnected, List.map_map, List.mem_map]
    rintro ⟨k, hk, heq⟩
    exact (hne k hk).1 (Nat.succ_inj.mp (pane_name_inj heq))

theorem reconnected_step {n : ℕ} (hn : n < MOVED_CAP) :
    tabs.step (reconnected n) ⟨pane_name n, pane_name (n + 1)⟩ (reconnected (n + 1)) := by
  refine ⟨reconnected_fresh n, ?_⟩
  have hlength : ¬ MOVED_CAP ≤ (reconnected n).moved.length := by
    rw [reconnected, length_map, length_range]
    exact Nat.not_le.mpr hn
  rw [(reconnected_fresh n).move_pane_eq, remember_move, if_neg hlength]
  have hkeep : ((List.range n).map fun k => (⟨pane_name k, pane_name (n + 1)⟩ : Move)).filter
      (fun e => e.old ≠ pane_name n)
      = (List.range n).map fun k => ⟨pane_name k, pane_name (n + 1)⟩ := by
    refine filter_eq_self.mpr fun e he => decide_eq_true ?_
    obtain ⟨k, hk, rfl⟩ := List.mem_map.mp he
    intro heq
    exact absurd (pane_name_inj heq) (Nat.ne_of_lt (mem_range.mp hk))
  have hmoved : (reconnected (n + 1)).moved = Keyed.put Move.old
      ((reconnected n).moved.map fun e =>
        if e.new = pane_name n then { e with new := pane_name (n + 1) } else e)
      ⟨pane_name n, pane_name (n + 1)⟩ := by
    rw [Keyed.put, reconnected, reconnected, List.map_map, range_succ, map_append]
    simp only [Function.comp_def, if_true]
    rw [hkeep]
    rfl
  have hhistory : (reconnected (n + 1)).history
      = (reconnected n).history ++ [⟨pane_name n, pane_name (n + 1)⟩] := by
    unfold reconnected
    dsimp only
    rw [range_succ, map_append, map_singleton]
  rw [← hmoved, ← hhistory]

theorem reconnected_reached (hn : n ≤ MOVED_CAP) : Reachable tabs (reconnected n) := by
  induction n with
  | zero => exact .start rfl
  | succ n ih => exact (ih (Nat.le_of_succ_le hn)).next (reconnected_step hn)

/-- After two reconnects a report that names the first id reaches the tab. -/
theorem moved_panes_are_found_two : Found (reconnected 2) := by
  apply moved_panes_are_found
  have hstart : Reachable (tabs.when Room) (reconnected 0) := .start rfl
  have hfirst : Reachable (tabs.when Room) (reconnected 1) :=
    hstart.next ⟨show _ < _ by decide, reconnected_step (by decide)⟩
  exact hfirst.next ⟨show _ < _ by decide, reconnected_step (by decide)⟩

/-- The tab's next reconnect after `MOVED_CAP` of them. -/
theorem recent_move_forgotten : ¬ ∀ s, Reachable tabs s → Found s := by
  intro h
  have hreached := reconnected_reached MOVED_CAP (Nat.le_refl _)
  have hfull : ¬ Room (reconnected MOVED_CAP) ⟨pane_name MOVED_CAP, pane_name (MOVED_CAP + 1)⟩ := by
    rw [Room, reconnected, length_map, length_range]
    exact Nat.lt_irrefl _
  have hstep : tabs.step (reconnected MOVED_CAP) ⟨pane_name MOVED_CAP, pane_name (MOVED_CAP + 1)⟩ _ :=
    ⟨reconnected_fresh MOVED_CAP, rfl⟩
  exact full_table_forgets hreached hfull hstep (h _ (hreached.next hstep))

end Lpm.Status
