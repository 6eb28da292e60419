/-
The snapshots of `~/.lpm` and which of them are kept: `backup_path`, `unused_path` and
`prune_backups` of `transfer.rs`.

A snapshot's folder is named by the local second, with a counter behind it when the name is
taken, and pruning takes the first names for the oldest snapshots. `stamp_lt` says that the
names are in the order of the seconds as long as the year has four digits, and `name_lt` that
a counter of one digit keeps them so.
-/
import Lpm.Lib.RustText
import Lpm.Lib.SortedList
import Lpm.Lib.Transition
import Mathlib.Data.Char
import Mathlib.Data.List.Induction
import Mathlib.Data.List.Lex

set_option autoImplicit false

namespace Lpm.Transfer

open List

open RustText StableSort Transition

def BACKUP_KEEP : ℕ := 10

/-! ## Names -/

/-- What a clock on the wall shows. -/
structure LocalTime where
  year : ℤ
  month : ℕ
  day : ℕ
  hour : ℕ
  minute : ℕ
  second : ℕ
  two_digits : month < 100 ∧ day < 100 ∧ hour < 100 ∧ minute < 100 ∧ second < 100
  deriving DecidableEq

/-- The last digits of a number, with zeros in front. -/
def pad : ℕ → ℕ → Str
  | 0, _ => []
  | k + 1, n => pad k (n / 10) ++ [Nat.digitChar (n % 10)]

/-- `%Y`: four digits, with a sign in front of a year that is negative or longer. -/
def year_digits (y : ℤ) : Str :=
  if 0 ≤ y ∧ y ≤ 9999 then pad 4 y.toNat
  else (if y < 0 then '-' else '+') :: (if y.natAbs ≤ 9999 then pad 4 y.natAbs else Nat.toDigits 10 y.natAbs)

/-- `%Y%m%d-%H%M%S`. -/
def stamp (t : LocalTime) : Str :=
  year_digits t.year ++ pad 2 t.month ++ pad 2 t.day ++ '-' :: (pad 2 t.hour ++ pad 2 t.minute ++ pad 2 t.second)

/-- `base` with a counter. -/
def numbered (base : Str) (n : ℕ) : Str := base ++ '-' :: Nat.toDigits 10 n

/-- `unused_path`. Of as many counters as there are folders and one more, one is not taken. -/
def unused_path (taken : List Str) (base : Str) : Str :=
  if base ∉ taken then base
  else (((List.range (taken.length + 1)).map fun n => numbered base (n + 1)).find? fun p => decide (p ∉ taken)).getD base

/-! ## Snapshots -/

/-- A folder beside `~/.lpm`, by what its name has behind `.lpm.backup-`, and the snapshot that
is in it. -/
structure Folder where
  name : Str
  shot : ℕ
  deriving DecidableEq

/-- The folders there are, and when the snapshots so far were taken. -/
structure State where
  present : List Folder
  times : List ℤ
  deriving DecidableEq

/-- `prune_backups`. -/
def prune_backups (keep : ℕ) (present : List Folder) : List Folder :=
  if present.length ≤ keep then present
  else
    let remove := (sortBy Folder.name present).take (present.length - keep)
    present.filter fun f => decide (f.name ∉ remove.map Folder.name)

variable (wall : ℤ → LocalTime)

/-- The folder of a snapshot taken now. -/
def backup_path (t : ℤ) (s : State) : Str :=
  unused_path (s.present.map Folder.name) (stamp (wall t))

/-- `snapshot_backup` and `snapshot_sync_backup`, by which folders they leave. -/
def State.snapshot (t : ℤ) (s : State) : State where
  present := prune_backups BACKUP_KEEP (s.present ++ [⟨backup_path wall t s, s.times.length⟩])
  times := s.times ++ [t]

/-- Snapshots at times that do not go back, from no backups, with the clock of any place. -/
def backups : System State ℤ where
  init s := s = ⟨[], []⟩
  step s t s' := (∀ u ∈ s.times, u ≤ t) ∧ s' = s.snapshot wall t

/-- The folders left are those of the last snapshots, each with a name of its own. -/
structure Newest (s : State) : Prop where
  shots : s.present.map Folder.shot = (List.range s.times.length).drop (s.times.length - BACKUP_KEEP)
  names : (s.present.map Folder.name).Nodup

/-- A place in the order of local time. -/
def LocalTime.number (t : LocalTime) : ℤ :=
  ((((t.year * 100 + t.month) * 100 + t.day) * 100 + t.hour) * 100 + t.minute) * 100 + t.second

/-- The clock on the wall has not gone back, its year has four digits, and fewer than ten
snapshots were taken in this second. -/
def InOrder (s : State) (t : ℤ) : Prop :=
  (0 ≤ (wall t).year ∧ (wall t).year ≤ 9999) ∧ (∀ u ∈ s.times, (wall u).number ≤ (wall t).number)
    ∧ (s.times.filter fun u => (wall u).number = (wall t).number).length < 10

/-! ## The order of names -/

section
variable {a b x y : Str} {c d k m n : ℕ} {t u : LocalTime}

theorem lt_append_of_lt (hlen : a.length = b.length) (h : a < b) (x y : Str) : a ++ x < b ++ y := by
  induction a generalizing b with
  | nil =>
    obtain rfl := eq_nil_of_length_eq_zero hlen.symm
    exact absurd h (lt_irrefl _)
  | cons p a ih =>
    obtain ⟨q, b, rfl⟩ := exists_cons_of_length_eq_add_one hlen.symm
    rw [cons_append, cons_append]
    rcases cons_lt_cons_iff.mp h with hpq | ⟨rfl, hab⟩
    · exact cons_lt_cons_iff.mpr (Or.inl hpq)
    · exact cons_lt_cons_iff.mpr (Or.inr ⟨rfl, ih (Nat.succ.inj hlen) hab⟩)

theorem append_lt_append (a : Str) (h : x < y) : a ++ x < a ++ y := by
  induction a with
  | nil => exact h
  | cons p a ih => exact cons_lt_cons_iff.mpr (Or.inr ⟨rfl, ih⟩)

@[simp] theorem length_pad (k n : ℕ) : (pad k n).length = k := by
  induction k generalizing n with
  | zero => rfl
  | succ k ih => rw [pad, length_append, ih, length_singleton]

theorem digit_lt : ∀ d < 10, ∀ c < d, Nat.digitChar c < Nat.digitChar d := by decide

theorem pad_lt (h : m < n) (hn : n < 10 ^ k) : pad k m < pad k n := by
  induction k generalizing m n with
  | zero => omega
  | succ k ih =>
    rw [pad, pad]
    by_cases hten : m / 10 < n / 10
    · exact lt_append_of_lt (by simp) (ih hten (by omega)) _ _
    · have hsame : m / 10 = n / 10 := by omega
      rw [hsame]
      exact append_lt_append _ (cons_lt_cons_iff.mpr (Or.inl (digit_lt _ (by omega) _ (by omega))))

theorem pad_append (h : n < 10 ^ k) (j m : ℕ) : pad (j + k) (m * 10 ^ k + n) = pad j m ++ pad k n := by
  induction k generalizing n with
  | zero =>
    obtain rfl : n = 0 := by omega
    simp [pad]
  | succ k ih =>
    have hten : m * 10 ^ (k + 1) = m * 10 ^ k * 10 := by rw [Nat.pow_succ, Nat.mul_assoc]
    have hdiv : (m * 10 ^ (k + 1) + n) / 10 = m * 10 ^ k + n / 10 := by omega
    have hmod : (m * 10 ^ (k + 1) + n) % 10 = n % 10 := by omega
    rw [Nat.pow_succ] at h
    rw [← Nat.add_assoc, pad, hdiv, hmod, ih (by omega), pad, append_assoc]

/-- The digits of the day and of the time of day. -/
theorem stamp_digits (h : 0 ≤ t.year ∧ t.year ≤ 9999) :
    ∃ day time : ℕ, day < 10 ^ 8 ∧ time < 10 ^ 6 ∧ t.number = day * 10 ^ 6 + time
      ∧ stamp t = pad 8 day ++ '-' :: pad 6 time := by
  obtain ⟨hmonth, hday, hhour, hminute, hsecond⟩ := t.two_digits
  have hyear : (t.year.toNat : ℤ) = t.year := Int.toNat_of_nonneg h.1
  refine ⟨(t.year.toNat * 10 ^ 2 + t.month) * 10 ^ 2 + t.day, (t.hour * 10 ^ 2 + t.minute) * 10 ^ 2 + t.second,
    by omega, by omega, ?_, ?_⟩
  · rw [LocalTime.number]
    push_cast
    rw [hyear]
    omega
  · have hdate := @pad_append 2 t.day (by omega) 6 (t.year.toNat * 10 ^ 2 + t.month)
    have hyears := @pad_append 2 t.month (by omega) 4 t.year.toNat
    have htime := @pad_append 2 t.second (by omega) 4 (t.hour * 10 ^ 2 + t.minute)
    have hhours := @pad_append 2 t.minute (by omega) 2 t.hour
    rw [stamp, year_digits, if_pos h, hdate, hyears, htime, hhours]

theorem stamp_lt (ht : 0 ≤ t.year ∧ t.year ≤ 9999) (hu : 0 ≤ u.year ∧ u.year ≤ 9999) (h : t.number < u.number) (x y : Str) :
    stamp t ++ x < stamp u ++ y := by
  obtain ⟨day, time, -, -, hnum, hstamp⟩ := stamp_digits ht
  obtain ⟨day', time', hday', htime', hnum', hstamp'⟩ := stamp_digits hu
  rw [hstamp, hstamp']
  refine lt_append_of_lt (by simp) ?_ _ _
  by_cases hday : day < day'
  · exact lt_append_of_lt (by simp) (pad_lt hday hday') _ _
  · have hsame : day = day' := by omega
    rw [hsame]
    refine append_lt_append _ (cons_lt_cons_iff.mpr (Or.inr ⟨rfl, ?_⟩))
    exact pad_lt (by omega) htime'

theorem stamp_eq (ht : 0 ≤ t.year ∧ t.year ≤ 9999) (hu : 0 ≤ u.year ∧ u.year ≤ 9999) (h : t.number = u.number) :
    stamp t = stamp u := by
  obtain ⟨day, time, -, htime, hnum, hstamp⟩ := stamp_digits ht
  obtain ⟨day', time', -, htime', hnum', hstamp'⟩ := stamp_digits hu
  have hday : day = day' := by omega
  have htime : time = time' := by omega
  rw [hstamp, hstamp', hday, htime]

/-- The name of the snapshot that comes after `n` others of its second. -/
def nth_name (base : Str) (n : ℕ) : Str := if n = 0 then base else numbered base n

/-- Below ten the counters are in order. -/
theorem nth_name_lt (h : m < n) (hn : n < 10) (base : Str) : nth_name base m < nth_name base n := by
  have hn0 : n ≠ 0 := by omega
  rw [nth_name, nth_name, if_neg hn0]
  by_cases hm : m = 0
  · rw [if_pos hm, numbered]
    have hmore := append_lt_append base (nil_lt_cons '-' (Nat.toDigits 10 n))
    rw [append_nil] at hmore
    exact hmore
  · rw [if_neg hm, numbered, numbered, Nat.toDigits_of_lt_base hn, Nat.toDigits_of_lt_base (by omega)]
    refine append_lt_append base (cons_lt_cons_iff.mpr (Or.inr ⟨rfl, ?_⟩))
    exact cons_lt_cons_iff.mpr (Or.inl (digit_lt n hn m h))

/-- And so are the names of different seconds. -/
theorem name_lt (ht : 0 ≤ t.year ∧ t.year ≤ 9999) (hu : 0 ≤ u.year ∧ u.year ≤ 9999) (h : t.number < u.number) (m n : ℕ) :
    nth_name (stamp t) m < nth_name (stamp u) n := by
  have hsplit : ∀ base k, ∃ x, nth_name base k = base ++ x := by
    intro base k
    rw [nth_name]
    split_ifs
    · exact ⟨[], (append_nil base).symm⟩
    · exact ⟨_, rfl⟩
  obtain ⟨x, hx⟩ := hsplit (stamp t) m
  obtain ⟨y, hy⟩ := hsplit (stamp u) n
  rw [hx, hy]
  exact stamp_lt ht hu h x y

/-! ## An unused name -/

theorem numbered_inj {base : Str} (h : numbered base m = numbered base n) : m = n := by
  have hdigits := (List.cons.inj (append_cancel_left h)).2
  have hback := congrArg (fun l => Nat.ofDigitChars 10 l 0) hdigits
  simpa only [Nat.ofDigitChars_ten_toDigits] using hback

/-- A name is found that no folder has. -/
theorem unused_path_fresh (taken : List Str) (base : Str) : unused_path taken base ∉ taken := by
  unfold unused_path
  by_cases hbase : base ∉ taken
  · rw [if_pos hbase]
    exact hbase
  · rw [if_neg hbase]
    rcases hfind : ((List.range (taken.length + 1)).map fun n => numbered base (n + 1)).find? fun p => decide (p ∉ taken) with _ | p
    -- one name more than there are folders
    · exfalso
      have hall := find?_eq_none.mp hfind
      have hnodup : ((List.range (taken.length + 1)).map fun n => numbered base (n + 1)).Nodup := by
        refine nodup_range.map ?_
        intro i j hij
        exact Nat.succ.inj (numbered_inj hij)
      have hsub : ((List.range (taken.length + 1)).map fun n => numbered base (n + 1)) ⊆ taken := by
        intro p hp
        simpa using hall p hp
      have hlen := (subperm_of_subset hnodup hsub).length_le
      rw [length_map, length_range] at hlen
      omega
    · have hfree := find?_some hfind
      rw [decide_eq_true_eq] at hfree
      exact hfree

/-- After the first names of a second the next counter is taken. -/
theorem unused_path_next {taken : List Str} {base : Str} (hhad : ∀ k < n, nth_name base k ∈ taken)
    (hlen : n ≤ taken.length) (hfree : nth_name base n ∉ taken) : unused_path taken base = nth_name base n := by
  cases n with
  | zero =>
    rw [nth_name, if_pos rfl] at hfree ⊢
    rw [unused_path, if_pos hfree]
  | succ n =>
    have hbase : base ∈ taken := hhad 0 (Nat.succ_pos n)
    have hname : ∀ k, nth_name base (k + 1) = numbered base (k + 1) := fun k => if_neg (Nat.succ_ne_zero k)
    have hfind : (List.range (taken.length + 1)).find? (fun k => decide (numbered base (k + 1) ∉ taken)) = some n := by
      rw [find?_range_eq_some]
      refine ⟨?_, ?_, ?_⟩
      · rw [hname] at hfree
        simpa using hfree
      · rw [mem_range]
        omega
      · intro k hk
        have hin := hhad (k + 1) (Nat.succ_lt_succ hk)
        rw [hname] at hin
        simpa using hin
    rw [unused_path, if_neg (not_not.mpr hbase), find?_map]
    have hcomp : ((fun p => decide (p ∉ taken)) ∘ fun k => numbered base (k + 1))
        = fun k => decide (numbered base (k + 1) ∉ taken) := rfl
    rw [hcomp, hfind, hname]
    rfl

/-- Pruning folders whose names are in order of age takes the oldest. -/
theorem prune_backups_eq {present : List Folder} (h : (present.map Folder.name).Pairwise (· < ·)) (keep : ℕ) :
    prune_backups keep present = present.drop (present.length - keep) := by
  unfold prune_backups
  split_ifs with hlen
  · rw [Nat.sub_eq_zero_of_le hlen, drop_zero]
  · have hsorted : sortBy Folder.name present = present :=
      sortBy_of_pairwise ((pairwise_map.mp h).imp fun hlt => le_of_lt hlt)
    dsimp only
    rw [hsorted]
    generalize present.length - keep = n
    have hsplit : present.take n ++ present.drop n = present := take_append_drop n present
    have hdisjoint : ∀ a ∈ present.take n, ∀ b ∈ present.drop n, a.name ≠ b.name := by
      rw [← hsplit, map_append, pairwise_append] at h
      intro a ha b hb
      exact ne_of_lt (h.2.2 _ (List.mem_map_of_mem ha) _ (List.mem_map_of_mem hb))
    have hold : (present.take n).filter (fun f => decide (f.name ∉ (present.take n).map Folder.name)) = [] := by
      rw [filter_eq_nil_iff]
      intro a ha
      simp only [decide_eq_true_eq, not_not]
      exact List.mem_map_of_mem ha
    have hnew : (present.drop n).filter (fun f => decide (f.name ∉ (present.take n).map Folder.name)) = present.drop n := by
      rw [filter_eq_self]
      intro b hb
      simp only [decide_eq_true_eq, List.mem_map, not_exists, not_and]
      intro a ha heq
      exact hdisjoint a ha b hb heq
    have happend := filter_append (p := fun f => decide (f.name ∉ (present.take n).map Folder.name))
      (present.take n) (present.drop n)
    rw [hsplit, hold, hnew] at happend
    exact happend

end

/-! ## Every snapshot, in the order taken -/

variable {wall : ℤ → LocalTime} {ts older recent : List ℤ} {t : ℤ} {s : State}

/-- The snapshots of one second. -/
def same_second (wall : ℤ → LocalTime) (t : ℤ) (ts : List ℤ) : List ℤ :=
  ts.filter fun u => (wall u).number = (wall t).number

/-- The folder of a snapshot when none had been pruned before it. -/
def made_at (wall : ℤ → LocalTime) (ts : List ℤ) (t : ℤ) : Folder :=
  ⟨nth_name (stamp (wall t)) (same_second wall t ts).length, ts.length⟩

/-- The folders of a sequence of snapshots, after those of another. -/
def made_after (wall : ℤ → LocalTime) : List ℤ → List ℤ → List Folder
  | _, [] => []
  | before, t :: ts => made_at wall before t :: made_after wall (before ++ [t]) ts

def made (wall : ℤ → LocalTime) (ts : List ℤ) : List Folder := made_after wall [] ts

theorem made_after_append (before ts ts' : List ℤ) :
    made_after wall before (ts ++ ts') = made_after wall before ts ++ made_after wall (before ++ ts) ts' := by
  induction ts generalizing before with
  | nil => rw [nil_append, append_nil, made_after, nil_append]
  | cons t ts ih => rw [cons_append, made_after, made_after, ih, append_assoc, cons_append]; rfl

theorem made_snoc (ts : List ℤ) (t : ℤ) : made wall (ts ++ [t]) = made wall ts ++ [made_at wall ts t] := by
  rw [made, made, made_after_append]
  rfl

@[simp] theorem length_made (ts : List ℤ) : (made wall ts).length = ts.length := by
  induction ts using List.reverseRecOn with
  | nil => rfl
  | append_singleton ts t ih => rw [made_snoc, length_append, ih, length_append]; rfl

theorem made_shots (ts : List ℤ) : (made wall ts).map Folder.shot = List.range ts.length := by
  induction ts using List.reverseRecOn with
  | nil => rfl
  | append_singleton ts t ih =>
    rw [made_snoc, map_append, ih, length_append, length_singleton, range_succ]
    rfl

/-- Each name is that of a snapshot taken. -/
theorem made_name {f : Folder} (h : f ∈ made wall ts) : ∃ u ∈ ts, ∃ k, f.name = nth_name (stamp (wall u)) k := by
  induction ts using List.reverseRecOn with
  | nil => exact absurd h not_mem_nil
  | append_singleton ts t ih =>
    rw [made_snoc, mem_append, mem_singleton] at h
    rcases h with h | rfl
    · obtain ⟨u, hu, k, hk⟩ := ih h
      exact ⟨u, mem_append_left _ hu, k, hk⟩
    · exact ⟨t, by simp, _, rfl⟩

/-- The snapshots of the second of `t`, when they are the last there are, have its first names. -/
theorem made_recent (hyears : ∀ u ∈ recent, 0 ≤ (wall u).year ∧ (wall u).year ≤ 9999)
    (hyear : 0 ≤ (wall t).year ∧ (wall t).year ≤ 9999) (holder : ∀ u ∈ older, (wall u).number ≠ (wall t).number)
    (hrecent : ∀ u ∈ recent, (wall u).number = (wall t).number) :
    (made wall (older ++ recent)).map Folder.name
      = (made wall older).map Folder.name ++ (List.range recent.length).map (nth_name (stamp (wall t))) := by
  induction recent using List.reverseRecOn with
  | nil => simp
  | append_singleton recent u ih =>
    have hu : (wall u).number = (wall t).number := hrecent u (by simp)
    have hstamp : stamp (wall u) = stamp (wall t) := stamp_eq (hyears u (by simp)) hyear hu
    have hnone : same_second wall u older = [] := by
      rw [same_second, filter_eq_nil_iff]
      intro v hv
      rw [decide_eq_true_eq, hu]
      exact holder v hv
    have hall : same_second wall u recent = recent := by
      rw [same_second, filter_eq_self]
      intro v hv
      rw [decide_eq_true_eq, hu]
      exact hrecent v (by simp [hv])
    have hcount : same_second wall u (older ++ recent) = recent := by
      rw [same_second, filter_append]
      exact congrArg₂ (· ++ ·) hnone hall
    rw [← append_assoc, made_snoc, map_append,
      ih (fun v hv => hyears v (by simp [hv])) (fun v hv => hrecent v (by simp [hv])),
      length_append, length_singleton, range_succ, map_append, append_assoc]
    rw [map_singleton, map_singleton, made_at, hcount, hstamp]

/-- Where the clock has not gone back, those of the last second are the last. -/
theorem same_second_last (hsorted : (ts.map fun u => (wall u).number).Pairwise (· ≤ ·))
    (hle : ∀ u ∈ ts, (wall u).number ≤ (wall t).number) :
    ts.filter (fun u => (wall u).number < (wall t).number) ++ same_second wall t ts = ts := by
  induction ts with
  | nil => rfl
  | cons u ts ih =>
    rw [map_cons, pairwise_cons] at hsorted
    have hrest := ih hsorted.2 fun v hv => hle v (mem_cons_of_mem u hv)
    by_cases hu : (wall u).number < (wall t).number
    · have hne : ¬ (wall u).number = (wall t).number := by omega
      rw [same_second, filter_cons_of_pos (by simpa using hu), filter_cons_of_neg (by simpa using hne),
        cons_append]
      exact congrArg (u :: ·) hrest
    -- from here on all are of that second
    · have heq : ∀ v ∈ u :: ts, (wall v).number = (wall t).number := by
        intro v hv
        have hvt := hle v hv
        have hut := hle u mem_cons_self
        rcases mem_cons.mp hv with rfl | hmem
        · omega
        · have huv := hsorted.1 _ (List.mem_map_of_mem hmem)
          omega
      have hnone : (u :: ts).filter (fun v => (wall v).number < (wall t).number) = [] := by
        rw [filter_eq_nil_iff]
        intro v hv
        rw [decide_eq_true_eq, heq v hv]
        exact lt_irrefl _
      have hall : same_second wall t (u :: ts) = u :: ts := by
        rw [same_second, filter_eq_self]
        intro v hv
        rw [decide_eq_true_eq]
        exact heq v hv
      rw [hnone, hall, nil_append]

/-- What holds after snapshots that were all in order: their names are, and the last are left. -/
structure Kept (wall : ℤ → LocalTime) (s : State) : Prop where
  years : ∀ u ∈ s.times, 0 ≤ (wall u).year ∧ (wall u).year ≤ 9999
  sorted : (s.times.map fun u => (wall u).number).Pairwise (· ≤ ·)
  names : ((made wall s.times).map Folder.name).Pairwise (· < ·)
  left : s.present = (made wall s.times).drop (s.times.length - BACKUP_KEEP)

/-- The names before `t` are below the one it would have, and the folders left have all that
its second has used. -/
theorem Kept.next_name (h : Kept wall s) (ht : InOrder wall s t) :
    (∀ p ∈ (made wall s.times).map Folder.name, p < (made_at wall s.times t).name)
      ∧ ∀ k < (same_second wall t s.times).length, nth_name (stamp (wall t)) k ∈ s.present.map Folder.name := by
  obtain ⟨hyear, hle, hten⟩ := ht
  have hten : (same_second wall t s.times).length < 10 := hten
  have hsplit := same_second_last h.sorted hle
  have hrecent : ∀ u ∈ same_second wall t s.times, u ∈ s.times ∧ (wall u).number = (wall t).number := by
    intro u hu
    simpa [same_second] using hu
  have holder : ∀ u ∈ s.times.filter (fun u => (wall u).number < (wall t).number),
      u ∈ s.times ∧ (wall u).number < (wall t).number := by
    intro u hu
    simpa using hu
  have hmade := @made_recent wall _ _ t (fun u hu => h.years u (hrecent u hu).1) hyear
    (fun u hu => ne_of_lt (holder u hu).2) (fun u hu => (hrecent u hu).2)
  rw [hsplit] at hmade
  constructor
  · intro p hp
    rw [hmade, mem_append] at hp
    rcases hp with hp | hp
    · obtain ⟨f, hf, rfl⟩ := List.mem_map.mp hp
      obtain ⟨u, hu, k, hk⟩ := made_name hf
      rw [hk]
      exact name_lt (h.years u (holder u hu).1) hyear (holder u hu).2 _ _
    · obtain ⟨k, hk, rfl⟩ := List.mem_map.mp hp
      exact nth_name_lt (mem_range.mp hk) hten _
  · intro k hk
    rw [h.left, map_drop, hmade, drop_append_of_le_length]
    · exact mem_append_right _ (List.mem_map_of_mem (mem_range.mpr hk))
    · have hlen := congrArg List.length hsplit
      rw [length_append] at hlen
      rw [length_map, length_made, BACKUP_KEEP]
      omega

/-- So it gets that name. -/
theorem Kept.backup_path_eq (h : Kept wall s) (ht : InOrder wall s t) :
    backup_path wall t s = (made_at wall s.times t).name := by
  obtain ⟨hless, hhad⟩ := h.next_name ht
  refine unused_path_next hhad ?_ ?_
  · have hten : (same_second wall t s.times).length < 10 := ht.2.2
    have hcount : (same_second wall t s.times).length ≤ s.times.length := length_filter_le _ _
    rw [length_map, h.left, length_drop, length_made, BACKUP_KEEP]
    omega
  · intro hmem
    rw [h.left, map_drop] at hmem
    exact lt_irrefl _ (hless _ (mem_of_mem_drop hmem))

theorem Kept.snapshot (h : Kept wall s) (ht : InOrder wall s t) : Kept wall (s.snapshot wall t) := by
  obtain ⟨hless, -⟩ := h.next_name ht
  have hnames : ((made wall (s.times ++ [t])).map Folder.name).Pairwise (· < ·) := by
    rw [made_snoc, map_append, pairwise_append]
    refine ⟨h.names, pairwise_singleton _ _, ?_⟩
    intro p hp q hq
    obtain rfl := mem_singleton.mp hq
    exact hless p hp
  refine ⟨?_, ?_, hnames, ?_⟩
  · intro u hu
    rcases mem_append.mp hu with hu | hu
    · exact h.years u hu
    · obtain rfl := mem_singleton.mp hu
      exact ht.1
  · change ((s.times ++ [t]).map _).Pairwise _
    rw [map_append, pairwise_append]
    refine ⟨h.sorted, pairwise_singleton _ _, ?_⟩
    intro p hp q hq
    obtain ⟨u, hu, rfl⟩ := List.mem_map.mp hp
    obtain rfl := mem_singleton.mp hq
    exact ht.2.1 u hu
  · change prune_backups _ (s.present ++ [⟨backup_path wall t s, _⟩]) = (made wall (s.times ++ [t])).drop _
    -- the folders before pruning are the last of those made, the new one among them
    have hbefore : s.present ++ [⟨backup_path wall t s, s.times.length⟩]
        = (made wall (s.times ++ [t])).drop (s.times.length - BACKUP_KEEP) := by
      rw [h.backup_path_eq ht, h.left, made_snoc, drop_append_of_le_length]
      · rfl
      · rw [length_made]
        exact Nat.sub_le _ _
    rw [hbefore, prune_backups_eq, drop_drop]
    · have htimes : (s.snapshot wall t).times.length = s.times.length + 1 := length_append
      congr 1
      simp only [htimes, length_drop, length_made, length_append, length_singleton, BACKUP_KEEP]
      omega
    · rw [map_drop]
      exact hnames.sublist (drop_sublist _ _)

theorem Kept.newest (h : Kept wall s) : Newest s where
  shots := by rw [h.left, map_drop, made_shots]
  names := by
    rw [h.left, map_drop]
    exact (h.names.sublist (drop_sublist _ _)).imp fun hlt => ne_of_lt hlt

theorem Kept.of_reachable (h : Reachable ((backups wall).when (InOrder wall)) s) : Kept wall s := by
  refine h.invariant ?_ ?_
  · rintro s rfl
    exact ⟨fun u hu => absurd hu not_mem_nil, List.Pairwise.nil, List.Pairwise.nil, rfl⟩
  · rintro s t s' hkept ⟨ht, -, rfl⟩
    exact hkept.snapshot ht

/-- While the clock on the wall does not go back, its year has four digits and each second has
fewer than ten snapshots before the next, the last snapshots are the ones left, a new one gets
a folder that none of them has, and its folder is there when it has been taken. -/
theorem backups_newest (h : Reachable ((backups wall).when (InOrder wall)) s) :
    Newest s ∧ (∀ t, backup_path wall t s ∉ s.present.map Folder.name)
      ∧ ∀ t, InOrder wall s t → ⟨backup_path wall t s, s.times.length⟩ ∈ (s.snapshot wall t).present := by
  have hkept := Kept.of_reachable h
  refine ⟨hkept.newest, fun t => unused_path_fresh _ _, ?_⟩
  intro t ht
  rw [(hkept.snapshot ht).left, hkept.backup_path_eq ht]
  change made_at wall s.times t ∈ (made wall (s.times ++ [t])).drop _
  rw [made_snoc, drop_append_of_le_length]
  · exact mem_append_right _ (mem_singleton.mpr rfl)
  · have htimes : (s.snapshot wall t).times.length = s.times.length + 1 := length_append
    rw [htimes, length_made, BACKUP_KEEP]
    omega

/-- A clock that stays within one minute. -/
def noon (t : ℤ) : LocalTime where
  year := 2026
  month := 1
  day := 2
  hour := 12
  minute := 0
  second := (t % 60).toNat
  two_digits := by omega

theorem backups_newest_noon :
    let s := ((State.snapshot noon 0 ⟨[], []⟩).snapshot noon 0).snapshot noon 1
    Newest s ∧ (∀ t, backup_path noon t s ∉ s.present.map Folder.name)
      ∧ ∀ t, InOrder noon s t → ⟨backup_path noon t s, s.times.length⟩ ∈ (s.snapshot noon t).present := by
  have hstart : Reachable ((backups noon).when (InOrder noon)) ⟨[], []⟩ := .start rfl
  have hone : Reachable ((backups noon).when (InOrder noon)) (State.snapshot noon 0 ⟨[], []⟩) :=
    hstart.next (a := 0) ⟨by unfold InOrder; decide +kernel, by decide +kernel, rfl⟩
  have htwo : Reachable ((backups noon).when (InOrder noon)) ((State.snapshot noon 0 ⟨[], []⟩).snapshot noon 0) :=
    hone.next (a := 0) ⟨by unfold InOrder; decide +kernel, by decide +kernel, rfl⟩
  exact backups_newest (htwo.next (a := 1) ⟨by unfold InOrder; decide +kernel, by decide +kernel, rfl⟩)

/-- Snapshots at times in order are a run. -/
theorem snapshots_reachable (h : ts.Pairwise (· ≤ ·)) :
    Reachable (backups wall) (ts.foldl (fun (s : State) t => s.snapshot wall t) ⟨[], []⟩)
      ∧ (ts.foldl (fun (s : State) t => s.snapshot wall t) ⟨[], []⟩).times = ts := by
  induction ts using List.reverseRecOn with
  | nil => exact ⟨.start rfl, rfl⟩
  | append_singleton ts t ih =>
    rw [pairwise_append] at h
    obtain ⟨hrun, htimes⟩ := ih h.1
    rw [foldl_append, foldl_cons, foldl_nil]
    refine ⟨hrun.next (a := t) ⟨?_, rfl⟩, congrArg (· ++ [t]) htimes⟩
    intro u hu
    rw [htimes] at hu
    exact h.2.2 u hu t (mem_singleton.mpr rfl)

/-- One folder too many takes away the one whose name is first. -/
theorem prune_backups_first {present rest : List Folder} {first : Folder} {keep : ℕ}
    (h : present.Perm (first :: rest)) (hsorted : ((first :: rest).map Folder.name).Pairwise (· < ·))
    (hlen : present.length = keep + 1) :
    prune_backups keep present = present.filter fun f => decide (f.name ≠ first.name) := by
  have hnodup : (present.map Folder.name).Nodup := (h.map _).nodup_iff.mpr (hsorted.imp fun hlt => ne_of_lt hlt)
  have hsort : sortBy Folder.name present = first :: rest := by
    rw [sortBy_congr hnodup h]
    exact sortBy_of_pairwise ((pairwise_map.mp hsorted).imp fun hlt => le_of_lt hlt)
  have hmany : ¬ present.length ≤ keep := by omega
  have hone : present.length - keep = 1 := by omega
  unfold prune_backups
  rw [if_neg hmany]
  dsimp only
  rw [hsort, hone]
  simp

/-- The folders of one second with some of its counters. -/
def counted (counters : List ℕ) : List Folder :=
  counters.map fun k => ⟨nth_name (stamp (noon 0)) k, k⟩

/-- The twelfth snapshot of a second takes the name that pruning the first has freed, and is
pruned as the oldest. -/
theorem twelfth_snapshot_pruned :
    ∃ s, Reachable (backups noon) s ∧ s.times = List.replicate 12 0 ∧ 11 ∉ s.present.map Folder.shot ∧ ¬ Newest s := by
  obtain ⟨hrun, htimes⟩ := @snapshots_reachable noon (List.replicate 12 0) (by decide)
  have hten : (List.replicate 10 0).foldl (fun (s : State) t => s.snapshot noon t) ⟨[], []⟩
      = ⟨counted (List.range 10), List.replicate 10 0⟩ := by decide +kernel
  have heleven : State.snapshot noon 0 ⟨counted (List.range 10), List.replicate 10 0⟩
      = ⟨counted (List.range' 1 10), List.replicate 11 0⟩ := by
    have hname : backup_path noon 0 ⟨counted (List.range 10), List.replicate 10 0⟩
        = nth_name (stamp (noon 0)) 10 := by decide +kernel
    -- the counter of two digits sorts behind that of the first
    rw [State.snapshot, hname, @prune_backups_first _ (counted [1, 10, 2, 3, 4, 5, 6, 7, 8, 9]) ⟨stamp (noon 0), 0⟩ _
      (by decide +kernel) (by decide +kernel) rfl]
    decide +kernel
  have htwelve : (State.snapshot noon 0 ⟨counted (List.range' 1 10), List.replicate 11 0⟩).present
      = counted (List.range' 1 10) := by
    have hname : backup_path noon 0 ⟨counted (List.range' 1 10), List.replicate 11 0⟩ = stamp (noon 0) := by
      decide +kernel
    rw [State.snapshot, hname, @prune_backups_first _ (counted [1, 10, 2, 3, 4, 5, 6, 7, 8, 9]) ⟨stamp (noon 0), 11⟩ _
      (by decide +kernel) (by decide +kernel) rfl]
    decide +kernel
  have hpresent : ((List.replicate 12 0).foldl (fun (s : State) t => s.snapshot noon t) ⟨[], []⟩).present
      = counted (List.range' 1 10) := by
    rw [show List.replicate 12 (0 : ℤ) = List.replicate 10 0 ++ [0, 0] from rfl, foldl_append, hten,
      foldl_cons, heleven, foldl_cons, foldl_nil, htwelve]
  have hshots : (counted (List.range' 1 10)).map Folder.shot = List.range' 1 10 := by decide +kernel
  refine ⟨_, hrun, htimes, ?_, ?_⟩
  · rw [hpresent, hshots]
    decide
  · intro hnewest
    have hwant := hnewest.shots
    rw [hpresent, htimes, hshots] at hwant
    revert hwant
    decide

end Lpm.Transfer
