/-
What `jobs.rs` writes about a job's runs: the outcomes that its history is read by,
which are strings in the state file, and the entries of a job's history.

An entry's cost is left out, a floating-point number nothing here reads; so are
the questions a run asked.
-/
import Lpm.Lib.Classes

set_option autoImplicit false

namespace Lpm.Jobs

open List Option Function

/-! ## Outcomes -/

def NOTHING_TO_DO : String := "nothing-to-do"
def FOUND_WORK : String := "found-work"
def COMPLETED : String := "completed"
def SKIPPED_OVERLAP : String := "skipped-overlap"
def SKIPPED_PENDING_COPY : String := "skipped-pending-copy"
def PENDING_WINDOW : String := "pending-window"
def SKIPPED_CAPACITY : String := "skipped-capacity"

/-! ## Entries -/

/-- `HistoryEntry`. -/
structure HistoryEntry where
  «at» : ℕ
  result : String
  /-- How many identical outcomes in a row the entry stands for. -/
  count : Option ℕ
  copy : Option String
  output : Option String
  session : Option String
  /-- The user's message, when the entry is the agent's reply to one. -/
  question : Option String
  resumed : Option String
  /-- The `at` of the entry this reply followed. -/
  follows : Option ℕ
  compacted : Bool
  answer_to : Option String
  /-- The machine that made the run, when it was not this one. -/
  ran_on : Option String

/-- `HistoryEntry::default()`. -/
def HistoryEntry.default : HistoryEntry :=
  { «at» := 0, result := "", count := none, copy := none, output := none, session := none,
    question := none, resumed := none, follows := none, compacted := false,
    answer_to := none, ran_on := none }

/-! ## Conversations

`thread_groups` of `jobs.rs`, and what `remove_history_entries` takes out.

An entry goes to the group of the last entry before it whose session it resumed, or of
the last one with the time it follows, or to a group of its own. What it looks up is
therefore an entry of the group it goes to, or nothing. Taking a group out takes out
entries that no entry of another group looks up, and what looked up nothing still does:
the rest goes to the groups it went to before (`Without`). -/

open Classes

/-! ## Grouping -/

/-- What the loop of `thread_groups` has gathered. -/
structure Threading where
  groups : List (List ℕ)
  by_session : String → Option ℕ
  by_at : ℕ → Option ℕ

namespace Threading

def empty : Threading := { groups := [], by_session := fun _ => none, by_at := fun _ => none }

variable (self : Threading) (e : HistoryEntry)

/-- `parent`: the group of the entry this one answers. -/
def parent : Option ℕ :=
  (e.resumed.bind self.by_session).or (e.follows.bind self.by_at)

/-- `idx`: the number of the group the entry goes to. -/
def idx : ℕ := (self.parent e).getD self.groups.length

/-- One turn of the loop. -/
def join (i : ℕ) : Threading :=
  let idx := self.idx e
  { groups := match self.parent e with
      | some g => self.groups.modify g fun group => group ++ [i]
      | none => self.groups ++ [[i]]
    by_session := match e.session with
      | some s => update self.by_session s (some idx)
      | none => self.by_session
    by_at := update self.by_at e.at (some idx) }

end Threading

/-- The loop over the entries and their indices. -/
def threading (history : List HistoryEntry) : Threading :=
  history.zipIdx.foldl (fun t x => t.join x.1 x.2) .empty

/-- `thread_groups`. -/
def thread_groups (history : List HistoryEntry) : List (List ℕ) := (threading history).groups

/-- `remove_history_entries`: the history left, and what was removed. -/
def remove_history_entries (history : List HistoryEntry) («at» : ℕ) (whole_thread : Bool) :
    List HistoryEntry × List HistoryEntry :=
  match history.findIdx? fun e => e.at == «at» with
  | none => (history, [])
  | some pos =>
    if !whole_thread then (history.eraseIdx pos, (history[pos]?).toList)
    else
      match (thread_groups history).find? fun g => g.contains pos with
      | none => (history, [])
      | some doomed =>
        (((history.zipIdx.filter fun x => !doomed.contains x.2).map fun x => x.1),
          (history.zipIdx.filter fun x => doomed.contains x.2).map fun x => x.1)

/-! ## The group of each entry -/

/-- The number of the group each entry goes to. -/
def labels (history : List HistoryEntry) : List ℕ :=
  (history.foldl (fun acc e => (acc.1.join e acc.2.length, acc.2 ++ [acc.1.idx e]))
    (Threading.empty, ([] : List ℕ))).2

variable (history : List HistoryEntry)
include history

theorem threading_concat (e : HistoryEntry) :
    threading (history ++ [e]) = (threading history).join e history.length := by
  unfold threading
  rw [zipIdx_append, foldl_append, Nat.zero_add]
  rfl

theorem labels_fold :
    history.foldl (fun acc e => (acc.1.join e acc.2.length, acc.2 ++ [acc.1.idx e]))
      (Threading.empty, ([] : List ℕ)) = (threading history, labels history) ∧
      (labels history).length = history.length := by
  induction history using List.reverseRecOn with
  | nil => exact ⟨rfl, rfl⟩
  | append_singleton history e ih =>
    obtain ⟨hfold, hlen⟩ := ih
    have hlabels : labels (history ++ [e]) = labels history ++ [(threading history).idx e] := by
      rw [labels, foldl_append, hfold]
      rfl
    refine ⟨?_, ?_⟩
    · rw [hlabels, foldl_append, hfold, threading_concat, ← hlen]
      rfl
    · rw [hlabels, length_append, length_append, hlen]
      rfl

theorem labels_length : (labels history).length = history.length :=
  (labels_fold history).2

theorem labels_concat (e : HistoryEntry) :
    labels (history ++ [e]) = labels history ++ [(threading history).idx e] := by
  rw [labels, foldl_append, (labels_fold history).1]
  rfl

omit history

/-- The groups are the places of each number, and only groups there are get looked up. -/
structure Threaded (t : Threading) (labels : List ℕ) : Prop where
  groups : t.groups = classes t.groups.length labels
  labels_lt : ∀ l ∈ labels, l < t.groups.length
  session_lt : ∀ s g, t.by_session s = some g → g < t.groups.length
  at_lt : ∀ a g, t.by_at a = some g → g < t.groups.length

theorem Threaded.parent_lt {t : Threading} {labels : List ℕ} (h : Threaded t labels)
    {e : HistoryEntry} {g : ℕ} (hg : t.parent e = some g) : g < t.groups.length := by
  unfold Threading.parent at hg
  rcases or_eq_some_iff.mp hg with hsession | ⟨-, hat⟩
  · obtain ⟨r, -, hr⟩ := bind_eq_some_iff.mp hsession
    exact h.session_lt r g hr
  · obtain ⟨a, -, ha⟩ := bind_eq_some_iff.mp hat
    exact h.at_lt a g ha

theorem join_length (t : Threading) (e : HistoryEntry) (i : ℕ) : (t.join e i).groups.length =
    if t.parent e = none then t.groups.length + 1 else t.groups.length := by
  unfold Threading.join
  cases t.parent e with
  | none => simp
  | some g => simp

theorem Threaded.join {t : Threading} {labels : List ℕ} (h : Threaded t labels) (e : HistoryEntry) :
    Threaded (t.join e labels.length) (labels ++ [t.idx e]) := by
  have hlen := join_length t e labels.length
  -- the entry's group is there after the step, old or new
  have hidx : t.idx e < (t.join e labels.length).groups.length := by
    rw [hlen]
    unfold Threading.idx
    cases hp : t.parent e with
    | none => simp
    | some g => simpa using h.parent_lt hp
  have hmore : t.groups.length ≤ (t.join e labels.length).groups.length := by
    rw [hlen]
    split_ifs <;> omega
  refine ⟨?_, ?_, ?_, ?_⟩
  · rw [hlen]
    unfold Threading.join Threading.idx
    cases hp : t.parent e with
    | none =>
      rw [if_pos rfl, getD_none, classes_concat_new h.labels_lt, ← h.groups]
    | some g =>
      rw [if_neg (by simp), getD_some, classes_concat, ← h.groups]
  · intro l hl
    rcases mem_append.mp hl with hl | hl
    · exact Nat.lt_of_lt_of_le (h.labels_lt l hl) hmore
    · rw [mem_singleton.mp hl]
      exact hidx
  · intro s g hg
    unfold Threading.join at hg
    dsimp only at hg
    -- only the entry's own session comes to name another group
    cases hs : e.session with
    | none =>
      rw [hs] at hg
      exact Nat.lt_of_lt_of_le (h.session_lt s g hg) hmore
    | some s' =>
      rw [hs] at hg
      dsimp only at hg
      by_cases heq : s = s'
      · rw [heq, update_self] at hg
        rw [← some.inj hg]
        exact hidx
      · rw [update_of_ne heq] at hg
        exact Nat.lt_of_lt_of_le (h.session_lt s g hg) hmore
  · intro a g hg
    unfold Threading.join at hg
    dsimp only at hg
    by_cases heq : a = e.at
    · rw [heq, update_self] at hg
      rw [← some.inj hg]
      exact hidx
    · rw [update_of_ne heq] at hg
      exact Nat.lt_of_lt_of_le (h.at_lt a g hg) hmore

theorem threaded (history : List HistoryEntry) : Threaded (threading history) (labels history) := by
  induction history using List.reverseRecOn with
  | nil => exact ⟨rfl, fun _ h => absurd h not_mem_nil, nofun, nofun⟩
  | append_singleton history e ih =>
    rw [threading_concat, labels_concat, ← labels_length]
    exact ih.join e

theorem thread_groups_eq (history : List HistoryEntry) :
    thread_groups history = classes (thread_groups history).length (labels history) :=
  (threaded history).groups

/-! ## Without one of the groups -/

/-- The entries that went to another group. -/
def rest (k : ℕ) (history : List HistoryEntry) : List HistoryEntry :=
  ((history.zip (labels history)).filter fun x => x.2 ≠ k).map fun x => x.1

theorem rest_concat (k : ℕ) (history : List HistoryEntry) (e : HistoryEntry) :
    rest k (history ++ [e]) =
      if (threading history).idx e = k then rest k history else rest k history ++ [e] := by
  unfold rest
  rw [labels_concat, zip_append (labels_length history).symm, filter_append,
    map_append]
  by_cases h : (threading history).idx e = k
  · simp [h]
  · simp [h]

/-- One of the loop's maps without the entries of group `k`, next to the one with them:
what other groups are looked up by they still are, and what is not looked up is not. A
look-up that led to group `k` may lead anywhere now. -/
structure Left {α : Type} (k : ℕ) (m m' : α → Option ℕ) : Prop where
  unknown : ∀ a, m a = none → m' a = none
  known : ∀ a g, m a = some g → g ≠ k → m' a = some (renumber k g)

section
variable {α : Type} [DecidableEq α] {k l : ℕ} {m m' : α → Option ℕ}

theorem Left.skip (h : Left k m m') (a : α) (hl : l = k) :
    Left k (update m a (some l)) m' := by
  refine ⟨?_, ?_⟩
  · intro b hb
    by_cases heq : b = a
    · simp [heq] at hb
    · rw [update_of_ne heq] at hb
      exact h.unknown b hb
  · intro b g hb hg
    by_cases heq : b = a
    · rw [heq, update_self] at hb
      have := some.inj hb
      omega
    · rw [update_of_ne heq] at hb
      exact h.known b g hb hg

theorem Left.update (h : Left k m m') (a : α) :
    Left k (update m a (some l)) (update m' a (some (renumber k l))) := by
  refine ⟨?_, ?_⟩
  · intro b hb
    by_cases heq : b = a
    · simp [heq] at hb
    · rw [update_of_ne heq] at hb ⊢
      exact h.unknown b hb
  · intro b g hb hg
    by_cases heq : b = a
    · rw [heq, update_self] at hb ⊢
      rw [some.inj hb]
    · rw [update_of_ne heq] at hb ⊢
      exact h.known b g hb hg

omit [DecidableEq α] in
theorem Left.bind_none (h : Left k m m') {a : Option α} (ha : a.bind m = none) :
    a.bind m' = none := by
  cases a with
  | none => rfl
  | some a => exact h.unknown a ha

end

/-- What the loop has gathered without the entries of group `k`, next to what it has
gathered with them. -/
structure Without (k : ℕ) (t t' : Threading) : Prop where
  length : t'.groups.length = if k < t.groups.length then t.groups.length - 1 else t.groups.length
  session : Left k t.by_session t'.by_session
  time : Left k t.by_at t'.by_at

section
variable {k : ℕ} {t t' : Threading} {e : HistoryEntry}

variable (h : Without k t t')
include h

theorem Without.parent_none (hp : t.parent e = none) : t'.parent e = none := by
  unfold Threading.parent at hp ⊢
  obtain ⟨hsession, hat⟩ := or_eq_none_iff.mp hp
  exact or_eq_none_iff.mpr ⟨h.session.bind_none hsession, h.time.bind_none hat⟩

theorem Without.parent_some {g : ℕ} (hp : t.parent e = some g) (hg : g ≠ k) :
    t'.parent e = some (renumber k g) := by
  unfold Threading.parent at hp ⊢
  rcases or_eq_some_iff.mp hp with hsession | ⟨hnone, hat⟩
  · obtain ⟨r, hr, hsome⟩ := bind_eq_some_iff.mp hsession
    rw [hr, bind_some, h.session.known r g hsome hg, some_or]
  · obtain ⟨f, hf, hsome⟩ := bind_eq_some_iff.mp hat
    rw [h.session.bind_none hnone, none_or, hf, bind_some,
      h.time.known f g hsome hg]

/-- An entry of another group goes to that group. -/
theorem Without.idx (hk : t.idx e ≠ k) : t'.idx e = renumber k (t.idx e) := by
  unfold Threading.idx at hk ⊢
  cases hp : t.parent e with
  | none =>
    rw [hp, getD_none] at hk
    rw [h.parent_none hp, getD_none, getD_none, h.length]
    unfold renumber
    split_ifs <;> omega
  | some g =>
    rw [hp, getD_some] at hk
    rw [h.parent_some hp hk, getD_some, getD_some]

/-- An entry of group `k` that is left out. -/
theorem Without.skip (hk : t.idx e = k) (i : ℕ) : Without k (t.join e i) t' := by
  refine ⟨?_, ?_, h.time.skip e.at hk⟩
  · rw [h.length, join_length]
    unfold Threading.idx at hk
    cases hp : t.parent e with
    | none =>
      rw [hp, getD_none] at hk
      rw [if_neg (by omega), if_pos rfl, if_pos (by omega)]
      omega
    | some g => rw [if_neg (show ¬ some g = none by simp)]
  · unfold Threading.join
    cases e.session with
    | none => exact h.session
    | some s => exact h.session.skip s hk

/-- An entry of another group. -/
theorem Without.join (hk : t.idx e ≠ k) (i i' : ℕ) :
    Without k (t.join e i) (t'.join e i') := by
  have hidx := h.idx hk
  refine ⟨?_, ?_, ?_⟩
  · rw [join_length, join_length, h.length]
    unfold Threading.idx at hk
    cases hp : t.parent e with
    | none =>
      rw [hp, getD_none] at hk
      rw [h.parent_none hp, if_pos rfl, if_pos rfl]
      split_ifs <;> omega
    | some g =>
      rw [hp, getD_some] at hk
      rw [h.parent_some hp hk, if_neg (show ¬ some (renumber k g) = none by simp),
        if_neg (show ¬ some g = none by simp)]
  · unfold Threading.join
    cases e.session with
    | none => exact h.session
    | some s =>
      dsimp only
      rw [hidx]
      exact h.session.update s
  · unfold Threading.join
    dsimp only
    rw [hidx]
    exact h.time.update e.at

end

/-- The rest of a history is grouped as it was. -/
theorem without_of_history (k : ℕ) (history : List HistoryEntry) :
    Without k (threading history) (threading (rest k history)) ∧
      labels (rest k history) = without k (labels history) := by
  induction history using List.reverseRecOn with
  | nil =>
    refine ⟨⟨?_, ⟨fun _ h => h, nofun⟩, ⟨fun _ h => h, nofun⟩⟩, rfl⟩
    simp [threading, rest, Threading.empty]
  | append_singleton history e ih =>
    obtain ⟨hwithout, hlabels⟩ := ih
    rw [rest_concat, labels_concat, without_concat, threading_concat]
    by_cases hk : (threading history).idx e = k
    · rw [if_pos hk, if_pos hk]
      exact ⟨hwithout.skip hk _, hlabels⟩
    · rw [if_neg hk, if_neg hk, threading_concat, labels_concat, hlabels, hwithout.idx hk]
      exact ⟨hwithout.join hk _ _, rfl⟩

/-! ## Removing one -/

/-- The entries at the indices that pass. -/
def entries_at (history : List HistoryEntry) (p : ℕ → Bool) : List HistoryEntry :=
  (history.zipIdx.filter fun x => p x.2).map fun x => x.1

theorem entries_at_eq (history : List HistoryEntry) (p : ℕ → Bool) :
    (entries_at history p).map some =
      ((List.range history.length).filter p).map fun i => history[i]? := by
  have hrange : history.zipIdx.map (fun x => x.2) = List.range history.length := by
    rw [range_eq_range']
    exact zipIdx_map_snd 0 history
  rw [entries_at, ← hrange, List.filter_map, List.map_map, List.map_map]
  refine map_congr_left ?_
  intro x hx
  exact (mem_zipIdx_iff_getElem?.mp (mem_of_mem_filter hx)).symm

theorem rest_eq (k : ℕ) (history : List HistoryEntry) :
    rest k history = entries_at history fun i => !(positions k (labels history)).contains i := by
  have hlen := labels_length history
  have hzip : history.zip (labels history) =
      history.zipIdx.map fun x => (x.1, (labels history).getD x.2 0) := by
    refine ext_getElem (by simp [hlen]) ?_
    intro i hi hi'
    have hlt : i < (labels history).length := by
      rw [length_zip, Nat.lt_min] at hi
      exact hi.2
    simp [hlt]
  rw [rest, entries_at, hzip, List.filter_map, List.map_map]
  refine congrArg _ (filter_congr ?_)
  intro x hx
  have hlt : x.2 < (labels history).length := by
    rw [hlen]
    exact (List.getElem?_eq_some_iff.mp (mem_zipIdx_iff_getElem?.mp hx)).1
  rw [comp_apply, getD_eq_getElem _ _ hlt]
  by_cases hk : (labels history)[x.2] = k
  · have hmem := mem_positions.mpr ((getElem?_eq_getElem hlt).trans (congrArg some hk))
    simp [hk, hmem]
  · have hmem : x.2 ∉ positions k (labels history) := by
      intro h
      exact hk (some.inj ((getElem?_eq_getElem hlt).symm.trans (mem_positions.mp h)))
    simp [hk, hmem]

/-- The group of an entry is found, and it is the one the entry went to. -/
theorem find_group {history : List HistoryEntry} {pos : ℕ} (hpos : pos < history.length) :
    ∃ k < (thread_groups history).length,
      (thread_groups history)[k]? = some (positions k (labels history)) ∧
      pos ∈ positions k (labels history) ∧
      (thread_groups history).find? (fun g => g.contains pos) =
        some (positions k (labels history)) := by
  have hgroups := thread_groups_eq history
  have hlt : pos < (labels history).length := by rwa [labels_length]
  obtain ⟨k, hk⟩ : ∃ k, (labels history)[pos]? = some k := ⟨_, getElem?_eq_getElem hlt⟩
  have hbound : k < (thread_groups history).length :=
    (threaded history).labels_lt k (mem_of_getElem? hk)
  have hmem := mem_positions.mpr hk
  have hget : (thread_groups history)[k]? = some (positions k (labels history)) := by
    rw [hgroups, classes_getElem?, if_pos hbound]
  refine ⟨k, hbound, hget, hmem, ?_⟩
  cases hfind : (thread_groups history).find? fun g => g.contains pos with
  | none =>
    have hno := find?_eq_none.mp hfind _ (mem_of_getElem? hget)
    exact absurd (contains_iff_mem.mpr hmem) hno
  | some g =>
    have hcontains : pos ∈ g := by simpa using find?_some hfind
    have hg := mem_of_find?_eq_some hfind
    rw [hgroups] at hg
    obtain ⟨j, -, rfl⟩ := List.mem_map.mp hg
    have hj := mem_positions.mp hcontains
    rw [hk] at hj
    rw [some.inj hj]

/-- The conversations are a partition of the entries, and removing the one an entry is
in takes out its entries and nothing else: the others stay in order, in the
conversations they were in. -/
theorem removing_a_conversation (history : List HistoryEntry) («at» : ℕ) :
    (thread_groups history).flatten.Perm (List.range history.length) ∧
      ∀ pos, history.findIdx? (fun e => e.at == «at») = some pos →
        ∃ k group, (thread_groups history)[k]? = some group ∧ pos ∈ group ∧
          let kept := (List.range history.length).filter fun i => i ∉ group
          let (left, removed) := remove_history_entries history «at» true
          removed.map some = group.map (fun i => history[i]?) ∧
            left.map some = kept.map (fun i => history[i]?) ∧
            (thread_groups left).map (List.map fun i => kept.getD i 0) =
              (thread_groups history).eraseIdx k := by
  have hgroups := thread_groups_eq history
  have hlen := labels_length history
  constructor
  · rw [hgroups, ← hlen]
    exact classes_partition (threaded history).labels_lt
  · intro pos hpos
    have hlt : pos < history.length := (findIdx?_eq_some_iff_getElem.mp hpos).1
    obtain ⟨k, hk, hget, hmem, hfind⟩ := find_group hlt
    refine ⟨k, positions k (labels history), hget, hmem, ?_⟩
    have hremove : remove_history_entries history «at» true = (rest k history,
        entries_at history fun i => (positions k (labels history)).contains i) := by
      unfold remove_history_entries
      rw [hpos]
      dsimp only [Bool.not_true]
      rw [if_neg (by decide), hfind, rest_eq]
      rfl
    -- what is left are the entries of the other groups, in their order
    have hothers := others_eq k (labels history)
    rw [hlen] at hothers
    rw [hremove]
    dsimp only
    rw [← hothers]
    refine ⟨?_, ?_, ?_⟩
    · rw [entries_at_eq]
      refine congrArg _ ?_
      have hpositions := positions_eq k (labels history)
      rw [hlen] at hpositions
      refine Eq.trans (filter_congr ?_) hpositions.symm
      intro i hi
      rw [Bool.eq_iff_iff, contains_iff_mem, mem_positions, Option.any_eq_true]
      simp
    · rw [rest_eq, entries_at_eq, hothers]
      refine congrArg _ (filter_congr ?_)
      intro i hi
      simp
    · obtain ⟨hwithout, hlabels⟩ := without_of_history k history
      have hcount : (thread_groups (rest k history)).length = (thread_groups history).length - 1 := by
        rw [thread_groups, hwithout.length]
        exact if_pos hk
      rw [thread_groups_eq (rest k history), hcount, hlabels, hgroups, classes_length]
      exact classes_without hk (labels history)

end Lpm.Jobs
