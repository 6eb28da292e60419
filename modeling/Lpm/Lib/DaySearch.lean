/-
Looking for an instant day by day.

A timetable gives every day some points, and a search for the next point runs
through the days from today on, stops after so many of them, and takes the first
point of a day that is late enough; a search for the last point runs backwards.
What is proved is that such a search finds the least point of all after an
instant, or the greatest one up to it, whenever it finds one at all.

The points of a day lie between the day's start and the next day's, so that the
days in order give the points in order. Nothing else is asked of a timetable.
-/
import Mathlib

set_option autoImplicit false

namespace DaySearch

open List

/-! ## The first hit of an ordered search -/

section
variable {δ π : Type*} {R : δ → δ → Prop} {S : π → π → Prop}

/-- What a search over ordered days and ordered points finds comes, among all the
points it looks at that qualify, before every other one. -/
theorem first_hit {days : List δ} {points : δ → List π} {p : π → Bool} {t : π}
    (hdays : days.Pairwise R) (hpoints : ∀ d ∈ days, (points d).Pairwise S)
    (hacross : ∀ d ∈ days, ∀ d' ∈ days, R d d' → ∀ x ∈ points d, ∀ x' ∈ points d', S x x')
    (h : days.findSome? (fun d => (points d).find? p) = some t) :
    (∃ d ∈ days, t ∈ points d) ∧ p t = true ∧
      ∀ d ∈ days, ∀ x ∈ points d, p x = true → x = t ∨ S t x := by
  obtain ⟨before, d₀, after, hsplit, hfind, hnone⟩ := findSome?_eq_some_iff.mp h
  obtain ⟨hpt, early, late, hlist, hearly⟩ := find?_eq_some_iff_append.mp hfind
  have hd₀ : d₀ ∈ days := by simp [hsplit]
  have ht : t ∈ points d₀ := by simp [hlist]
  refine ⟨⟨d₀, hd₀, ht⟩, hpt, fun d hd x hx hpx => ?_⟩
  rw [hsplit, mem_append, mem_cons] at hd
  rcases hd with hd | rfl | hd
  -- a day the search had passed has no point that qualifies
  · have hno := find?_eq_none.mp (hnone d hd) x hx
    exact absurd hpx hno
  · rw [hlist, mem_append, mem_cons] at hx
    rcases hx with hx | rfl | hx
    · have hno := hearly x hx
      simp only [hpx, Bool.not_true, Bool.false_eq_true] at hno
    · exact Or.inl rfl
    · have hpair := hpoints d hd₀
      rw [hlist, pairwise_append] at hpair
      exact Or.inr ((pairwise_cons.mp hpair.2.1).1 x hx)
  · rw [hsplit, pairwise_append] at hdays
    have hR := (pairwise_cons.mp hdays.2.1).1 d hd
    exact Or.inr (hacross d₀ hd₀ d (by simp [hsplit, hd]) hR t ht x hx)

theorem hit_of_mem {days : List δ} {points : δ → List π} {p : π → Bool} {d : δ} {x : π}
    (hd : d ∈ days) (hx : x ∈ points d) (hpx : p x = true) :
    ∃ t, days.findSome? (fun d => (points d).find? p) = some t := by
  rw [← Option.isSome_iff_exists, findSome?_isSome_iff]
  exact ⟨d, hd, find?_isSome.mpr ⟨x, hx, hpx⟩⟩

end

/-- What a search through a sorted list finds is least among what it looks for. -/
theorem find_least {α : Type*} [PartialOrder α] {l : List α} {p : α → Bool} {t : α}
    (hsorted : l.Pairwise (· < ·)) (h : l.find? p = some t) : ∀ x ∈ l, p x = true → t ≤ x := by
  obtain ⟨-, early, late, rfl, hearly⟩ := find?_eq_some_iff_append.mp h
  intro x hx hpx
  rcases mem_append.mp hx with hx | hx
  · have hno := hearly x hx
    simp only [hpx, Bool.not_true, Bool.false_eq_true] at hno
  · rcases mem_cons.mp hx with rfl | hx
    · exact le_refl _
    · have hpair := (pairwise_append.mp hsorted).2.1
      exact ((pairwise_cons.mp hpair).1 x hx).le

/-! ## Timetables -/

/-- The points of every day, in order and inside the day. -/
structure Timetable where
  start : ℤ → ℤ
  points : ℤ → List ℤ
  sorted : ∀ d, (points d).Pairwise (· < ·)
  inside : ∀ d, ∀ p ∈ points d, start d ≤ p ∧ p < start (d + 1)
  start_mono : Monotone start

namespace Timetable
variable (T : Timetable) (runs : ℤ → Bool)

/-- The points of the days that run. -/
def pts : Set ℤ := {p | ∃ d, runs d = true ∧ p ∈ T.points d}

/-- The days `today`, `today + 1` and so on, `n` of them, that run. -/
def days_forward (today : ℤ) (n : ℕ) : List ℤ :=
  ((List.range n).map fun i : ℕ => today + (i : ℤ)).filter runs

/-- The days `today`, `today - 1` and so on, `n` of them, that run. -/
def days_backward (today : ℤ) (n : ℕ) : List ℤ :=
  ((List.range n).map fun i : ℕ => today - (i : ℤ)).filter runs

variable {T runs} {today now t : ℤ} {n : ℕ}

theorem mem_days_forward {d : ℤ} :
    d ∈ days_forward runs today n ↔ (today ≤ d ∧ d < today + n) ∧ runs d = true := by
  simp only [days_forward, mem_filter, List.mem_map, mem_range]
  refine and_congr_left fun _ => ⟨?_, fun h => ⟨(d - today).toNat, by omega, by omega⟩⟩
  rintro ⟨i, hi, rfl⟩
  omega

theorem mem_days_backward {d : ℤ} :
    d ∈ days_backward runs today n ↔ (today - n < d ∧ d ≤ today) ∧ runs d = true := by
  simp only [days_backward, mem_filter, List.mem_map, mem_range]
  refine and_congr_left fun _ => ⟨?_, fun h => ⟨(today - d).toNat, by omega, by omega⟩⟩
  rintro ⟨i, hi, rfl⟩
  omega

theorem days_forward_sorted : (days_forward runs today n).Pairwise (· < ·) := by
  refine List.Pairwise.filter _ (pairwise_map.mpr ?_)
  exact pairwise_lt_range.imp fun h => by omega

theorem days_backward_sorted : (days_backward runs today n).Pairwise (· > ·) := by
  refine List.Pairwise.filter _ (pairwise_map.mpr ?_)
  exact pairwise_lt_range.imp fun h => by omega

/-- Points of an earlier day come before those of a later one. -/
theorem across {d d' x x' : ℤ} (h : d < d') (hx : x ∈ T.points d) (hx' : x' ∈ T.points d') :
    x < x' := by
  have hmid := T.start_mono (show d + 1 ≤ d' by omega)
  have := (T.inside d x hx).2
  have := (T.inside d' x' hx').1
  omega

/-- A list for a forward search: days that run, from today on, in order, and none that
runs left out between them. -/
structure Ahead (runs : ℤ → Bool) (today : ℤ) (days : List ℤ) : Prop where
  sorted : days.Pairwise (· < ·)
  runs_on : ∀ d ∈ days, today ≤ d ∧ runs d = true
  no_hole : ∀ d, today ≤ d → runs d = true → ∀ d' ∈ days, d < d' → d ∈ days

/-- The same for a search that goes back. -/
structure Behind (runs : ℤ → Bool) (today : ℤ) (days : List ℤ) : Prop where
  sorted : days.Pairwise (· > ·)
  runs_on : ∀ d ∈ days, d ≤ today ∧ runs d = true
  no_hole : ∀ d, d ≤ today → runs d = true → ∀ d' ∈ days, d' < d → d ∈ days

theorem days_forward_ahead : Ahead runs today (days_forward runs today n) where
  sorted := days_forward_sorted
  runs_on := fun _ hd => ⟨(mem_days_forward.mp hd).1.1, (mem_days_forward.mp hd).2⟩
  no_hole := fun d htoday hruns d' hd' hlt =>
    mem_days_forward.mpr ⟨⟨htoday, by have := (mem_days_forward.mp hd').1; omega⟩, hruns⟩

theorem days_backward_behind : Behind runs today (days_backward runs today n) where
  sorted := days_backward_sorted
  runs_on := fun _ hd => ⟨(mem_days_backward.mp hd).1.2, (mem_days_backward.mp hd).2⟩
  no_hole := fun d htoday hruns d' hd' hlt =>
    mem_days_backward.mpr ⟨⟨by have := (mem_days_backward.mp hd').1; omega, htoday⟩, hruns⟩

variable {days : List ℤ}

/-- A forward search that finds a point finds the least one after `now`. -/
theorem least_of_search (hdays : Ahead runs today days) (hnow : T.start today ≤ now)
    (h : days.findSome? (fun d => (T.points d).find? fun p => now < p) = some t) :
    IsLeast {p | now < p ∧ p ∈ T.pts runs} t := by
  obtain ⟨⟨d, hd, ht⟩, hpt, hfirst⟩ := first_hit hdays.sorted
    (fun d _ => T.sorted d) (fun _ _ _ _ hlt _ hx _ hx' => across hlt hx hx') h
  refine ⟨⟨by simpa using hpt, d, (hdays.runs_on d hd).2, ht⟩, ?_⟩
  rintro p ⟨hp, d', hruns, hp'⟩
  have htoday : today ≤ d' := by
    by_contra hlt
    have := T.start_mono (show d' + 1 ≤ today by omega)
    have := (T.inside d' p hp').2
    omega
  by_cases hin : d' ∈ days
  · rcases hfirst d' hin p hp' (by simpa using hp) with rfl | hlt
    · exact le_refl _
    · exact le_of_lt hlt
  -- a day the search leaves out comes after all it looks at
  · have hlt : d < d' := by
      by_contra hge
      rcases lt_or_eq_of_le (not_lt.mp hge) with hlt | rfl
      · exact hin (hdays.no_hole d' htoday hruns d hd hlt)
      · exact hin hd
    exact le_of_lt (across hlt ht hp')

/-- A backward search that finds a point finds the greatest one up to `now`. -/
theorem greatest_of_search (hdays : Behind runs today days) (hnow : now < T.start (today + 1))
    (h : days.findSome? (fun d => (T.points d).reverse.find? fun p => p ≤ now) = some t) :
    IsGreatest {p | p ≤ now ∧ p ∈ T.pts runs} t := by
  obtain ⟨⟨d, hd, ht⟩, hpt, hfirst⟩ := first_hit (S := fun x x' => x' < x) hdays.sorted
    (fun d _ => pairwise_reverse.mpr (T.sorted d))
    (fun _ _ _ _ hlt _ hx _ hx' => across hlt (mem_reverse.mp hx') (mem_reverse.mp hx)) h
  rw [mem_reverse] at ht
  refine ⟨⟨by simpa using hpt, d, (hdays.runs_on d hd).2, ht⟩, ?_⟩
  rintro p ⟨hp, d', hruns, hp'⟩
  have htoday : d' ≤ today := by
    by_contra hlt
    have := T.start_mono (show today + 1 ≤ d' by omega)
    have := (T.inside d' p hp').1
    omega
  by_cases hin : d' ∈ days
  · rcases hfirst d' hin p (mem_reverse.mpr hp') (by simpa using hp) with rfl | hlt
    · exact le_refl _
    · exact le_of_lt hlt
  · have hlt : d' < d := by
      by_contra hge
      rcases lt_or_eq_of_le (not_lt.mp hge) with hlt | rfl
      · exact hin (hdays.no_hole d' htoday hruns d hd hlt)
      · exact hin hd
    exact le_of_lt (across hlt hp' ht)

/-- A search finds something exactly when one of its days has a point it looks for. -/
theorem search_iff :
    (∃ t, days.findSome? (fun d => (T.points d).find? fun p => now < p) = some t) ↔
      ∃ d ∈ days, ∃ p ∈ T.points d, now < p := by
  constructor
  · rintro ⟨t, h⟩
    obtain ⟨d, hd, hfind⟩ := exists_of_findSome?_eq_some h
    exact ⟨d, hd, t, mem_of_find?_eq_some hfind, by simpa using find?_some hfind⟩
  · rintro ⟨d, hd, p, hp, hlt⟩
    exact hit_of_mem hd hp (decide_eq_true hlt)

theorem search_back_iff :
    (∃ t, days.findSome? (fun d => (T.points d).reverse.find? fun p => p ≤ now) = some t) ↔
      ∃ d ∈ days, ∃ p ∈ T.points d, p ≤ now := by
  constructor
  · rintro ⟨t, h⟩
    obtain ⟨d, hd, hfind⟩ := exists_of_findSome?_eq_some h
    exact ⟨d, hd, t, mem_reverse.mp (mem_of_find?_eq_some hfind), by
      simpa using find?_some hfind⟩
  · rintro ⟨d, hd, p, hp, hle⟩
    exact hit_of_mem hd (mem_reverse.mpr hp) (decide_eq_true hle)

/-! ## When the search finds something

A search sees the next point as long as no two days that run, one after the other,
are as far apart as the number of days it looks at. -/

/-- Every day that runs is followed by another less than `n` days later. -/
def GapsBelow (runs : ℤ → Bool) (n : ℕ) : Prop :=
  ∀ d, runs d = true → ∃ d', runs d' = true ∧ d < d' ∧ d' < d + n

/-- Some day runs before any given day. -/
def RunsBefore (runs : ℤ → Bool) : Prop := ∀ d, ∃ d' < d, runs d' = true

theorem RunsBefore.last (hpast : RunsBefore runs) (d : ℤ) :
    ∃ d₀, (d₀ < d ∧ runs d₀ = true) ∧ ∀ x, x < d ∧ runs x = true → x ≤ d₀ := by
  obtain ⟨x, hx, hrunsx⟩ := hpast d
  exact Int.exists_greatest_of_bdd (P := fun x => x < d ∧ runs x = true)
    ⟨d, fun z hz => le_of_lt hz.1⟩ ⟨x, hx, hrunsx⟩

variable (h : GapsBelow runs n)
include h

variable (hpast : RunsBefore runs)
include hpast

/-- With gaps below `n`, among the `n - 1` days that follow a day one runs. -/
theorem GapsBelow.next (d : ℤ) :
    ∃ d', runs d' = true ∧ d < d' ∧ d' < d + n := by
  -- the last day up to `d` that runs is followed by one less than `n` days later
  obtain ⟨d₀, ⟨hle, hruns⟩, hlast⟩ := hpast.last (d + 1)
  obtain ⟨d', hruns', hlt, hgap⟩ := h d₀ hruns
  refine ⟨d', hruns', ?_, by omega⟩
  by_contra hge
  have := hlast d' ⟨by omega, hruns'⟩
  omega

/-- Seen from the other side, among the `n - 1` days before a day one runs. -/
theorem GapsBelow.prev (d : ℤ) :
    ∃ d', runs d' = true ∧ d' < d ∧ d < d' + n := by
  obtain ⟨d₀, ⟨hlt₀, hruns⟩, hlast⟩ := hpast.last d
  obtain ⟨d', hruns', hlt, hgap⟩ := h d₀ hruns
  refine ⟨d₀, hruns, hlt₀, ?_⟩
  by_contra hge
  have := hlast d' ⟨by omega, hruns'⟩
  omega

/-- When every day has a point, a forward search over such days finds one. -/
theorem search_finds
    (hpoints : ∀ d, T.points d ≠ []) (hnow : now < T.start (today + 1)) :
    ∃ t, (days_forward runs today n).findSome?
      (fun d => (T.points d).find? fun p => now < p) = some t := by
  obtain ⟨d, hruns, hlt, hgap⟩ := h.next hpast today
  obtain ⟨p, hp⟩ := exists_mem_of_ne_nil _ (hpoints d)
  have hstart := T.start_mono (show today + 1 ≤ d by omega)
  have := (T.inside d p hp).1
  rw [search_iff]
  exact ⟨d, mem_days_forward.mpr ⟨⟨by omega, hgap⟩, hruns⟩, p, hp, by omega⟩

/-- And so does a backward search. -/
theorem search_finds_back
    (hpoints : ∀ d, T.points d ≠ []) (hnow : T.start today ≤ now) :
    ∃ t, (days_backward runs today n).findSome?
      (fun d => (T.points d).reverse.find? fun p => p ≤ now) = some t := by
  obtain ⟨d, hruns, hlt, hgap⟩ := h.prev hpast today
  obtain ⟨p, hp⟩ := exists_mem_of_ne_nil _ (hpoints d)
  have hstart := T.start_mono (show d + 1 ≤ today by omega)
  have := (T.inside d p hp).2
  rw [search_back_iff]
  exact ⟨d, mem_days_backward.mpr ⟨⟨by omega, by omega⟩, hruns⟩, p, hp, by omega⟩

end Timetable

/-! ## Looking back and looking ahead

One side asks whether the last point is news to it, the other looks for the next
point. They agree: the first instant at which the last point is news is the next
point, as long as the last point is no news now and every later one will be. -/

/-- A search back and a search ahead over the same points. -/
structure Paired (points : Set ℤ) (back ahead : ℤ → Option ℤ) : Prop where
  back_greatest : ∀ now t, back now = some t → IsGreatest {p | p ≤ now ∧ p ∈ points} t
  back_earlier : ∀ now u t, t ≤ now → now ≤ u → back u = some t → back now = some t
  back_self : ∀ p ∈ points, back p = some p
  ahead_least : ∀ now t, ahead now = some t → IsLeast {p | now < p ∧ p ∈ points} t
  ahead_finds : ∀ now p, p ∈ points → now < p → ∃ t, ahead now = some t

theorem Paired.first_news_iff {points : Set ℤ} {back ahead : ℤ → Option ℤ}
    (h : Paired points back ahead) {news : ℤ → Prop} {now : ℤ}
    (hnow : ∀ p, back now = some p → ¬ news p) (hlater : ∀ p, now < p → news p) (t : ℤ) :
    IsLeast {u | now < u ∧ ∃ p, back u = some p ∧ news p} t ↔ ahead now = some t := by
  -- news later on is news of a point after `now`
  have hafter : ∀ u p, now < u → back u = some p → news p → now < p := by
    intro u p hu hback hnews
    by_contra hle
    exact hnow p (h.back_earlier now u p (not_lt.mp hle) hu.le hback) hnews
  have hself : ∀ p, now < p → p ∈ points → ∃ q, back p = some q ∧ news q := fun p hp hmem =>
    ⟨p, h.back_self p hmem, hlater p hp⟩
  constructor
  · rintro ⟨⟨hu, p, hback, hnews⟩, hmin⟩
    have hp := hafter t p hu hback hnews
    obtain ⟨⟨hpt, hmem⟩, -⟩ := h.back_greatest t p hback
    obtain ⟨t', ht'⟩ := h.ahead_finds now p hmem hp
    obtain ⟨⟨hlt', hmem'⟩, hleast⟩ := h.ahead_least now t' ht'
    have h1 : t ≤ t' := hmin ⟨hlt', hself t' hlt' hmem'⟩
    have h2 : t' ≤ p := hleast ⟨hp, hmem⟩
    rw [ht', le_antisymm (h2.trans hpt) h1]
  · intro hahead
    obtain ⟨⟨hlt, hmem⟩, hleast⟩ := h.ahead_least now t hahead
    refine ⟨⟨hlt, hself t hlt hmem⟩, ?_⟩
    rintro u ⟨hu, p, hback, hnews⟩
    obtain ⟨⟨hpu, hmem'⟩, -⟩ := h.back_greatest u p hback
    exact (hleast ⟨hafter u p hu hback hnews, hmem'⟩).trans hpu

end DaySearch
