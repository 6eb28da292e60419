/-
What `pick` comes to, told of the list as a whole.

`placed` is the list with what stands above each account, so that the walk needs no
position: what it keeps is the accounts of `placed` that are near a limit, those that are
stopped, and the first that is signed out. The choice is right exactly on the lists of
`PicksWhen`. A signed-out account is fallen back on without a look at what else is wrong
with it, and an account whose first stop ends soonest may have another that ends late.
-/
import Lpm.ClaudePool.Pick
import Mathlib.Data.List.Nodup

set_option autoImplicit false

namespace Lpm.ClaudePool

open List

/-! ## One account -/

/-- The reasons that hold of an account however much it has used. -/
def Skip.bars : Skip → Bool
  | .same_account _ => true
  | .not_allowed => true
  | .unconfirmed => true
  | .on_hold => true
  | _ => false

/-- What a reason, or none, says of the account. -/
inductive Reason (earlier : List Member) (m : Member) (now : ℤ) : Option Skip → Prop
  | out (hin : m.signed_in = false) : Reason earlier m now (some .signed_out)
  | barred {skip : Skip} (hin : m.signed_in = true) (hel : ¬ Eligible earlier m)
    (hbars : skip.bars = true) : Reason earlier m now (some skip)
  | hit {w : Option Win} {r : ℤ} {rest : List ℤ} (huse : Usable earlier m)
    (hstops : stops m now = r :: rest) : Reason earlier m now (some (.hit w r))
  | near {w : Win} {percent : ℚ} {r : ℤ} (huse : Usable earlier m) (hstops : stops m now = []) :
    Reason earlier m now (some (.near w percent r))
  | free (huse : Usable earlier m) (hstops : stops m now = []) : Reason earlier m now none

theorem skip_of_reason (m : Member) (earlier : List Member) (now : ℤ) :
    Reason earlier m now (skip_of m earlier now) := by
  rw [skip_of]
  -- `skip_of` stops at the first of its checks that fails, and so does `Reason`
  by_cases hin : m.signed_in = false
  · rw [if_pos hin]
    exact .out hin
  rw [if_neg hin]
  replace hin : m.signed_in = true := by simpa using hin
  cases hsame : same_as m earlier with
  | some first =>
    refine .barred hin (fun hel => ?_) rfl
    rw [same_as_eq_none.mpr hel.own] at hsame
    exact nomatch hsame
  | none =>
    dsimp only
    by_cases hal : m.allowed = false
    · rw [if_pos hal]
      exact .barred hin (fun hel => by simp [hel.allowed] at hal) rfl
    rw [if_neg hal]
    by_cases hconf : m.confirmed = false
    · rw [if_pos hconf]
      exact .barred hin (fun hel => by simp [hel.confirmed] at hconf) rfl
    rw [if_neg hconf]
    by_cases hhold : m.on_hold = true
    · rw [if_pos hhold]
      exact .barred hin (fun hel => by simp [hel.free] at hhold) rfl
    rw [if_neg hhold]
    have huse : Usable earlier m := by
      refine ⟨hin, same_as_eq_none.mp hsame, ?_, ?_, ?_⟩
      · simpa using hal
      · simpa using hconf
      · simpa using hhold
    by_cases hstop : m.stopped_until > now
    · rw [if_pos hstop]
      have hstops : stops m now = m.stopped_until :: full m now := by
        rw [stops, if_pos hstop, singleton_append]
      exact .hit huse hstops
    rw [if_neg hstop]
    have hstops : stops m now = full m now := by
      rw [stops, if_neg hstop, nil_append]
    -- the window it names is the first that is full
    have hfull := used_up_full m now
    cases hup : used_up 100 m now with
    | some kw =>
      rw [hup, Option.map_some] at hfull
      obtain ⟨rest, hrest⟩ := head?_eq_some_iff.mp hfull.symm
      exact .hit huse (hstops.trans hrest)
    | none =>
      rw [hup, Option.map_none] at hfull
      have hnone : stops m now = [] := hstops.trans (head?_eq_none_iff.mp hfull.symm)
      dsimp only
      cases used_up SWITCH_AT m now with
      | none => exact .free huse hnone
      | some kw => exact .near huse hnone

/-! ## The walk -/

/-- The accounts of a list, each with those above it. -/
def placed_after : List Member → List Member → List (List Member × Member)
  | _, [] => []
  | earlier, m :: rest => (earlier, m) :: placed_after (earlier ++ [m]) rest

variable (members : List Member)

def placed : List (List Member × Member) := placed_after [] members

theorem map_snd_placed_after (rest earlier : List Member) :
    (placed_after earlier rest).map Prod.snd = rest := by
  induction rest generalizing earlier with
  | nil => rfl
  | cons m rest ih => rw [placed_after, map_cons, ih]

theorem map_snd_placed : (placed members).map Prod.snd = members :=
  map_snd_placed_after members []

variable {members : List Member}

/-- Where ids are distinct an id is that of one place. -/
theorem placed_inj (hids : (members.map Member.id).Nodup)
    {q q' : List Member × Member} (hq : q ∈ placed members) (hq' : q' ∈ placed members)
    (hid : q.2.id = q'.2.id) : q = q' := by
  have hnodup : ((placed members).map fun q => q.2.id).Nodup := by
    have hmap : ((placed members).map fun q => q.2.id) = members.map Member.id := by
      conv_rhs => rw [← map_snd_placed members, List.map_map]
      rfl
    rw [hmap]
    exact hids
  exact inj_on_of_nodup_map hnodup hq hq' hid

variable {rest earlier : List Member} {q : List Member × Member}

/-- What stands above a place is what the list has before it. -/
theorem above_eq {before after : List (List Member × Member)}
    (h : placed_after earlier rest = before ++ q :: after) :
    q.1 = earlier ++ before.map Prod.snd := by
  induction rest generalizing earlier before with
  | nil => exact absurd h.symm (by simp [placed_after])
  | cons m rest ih =>
    rw [placed_after] at h
    cases before with
    | nil =>
      rw [← (List.cons.inj h).1]
      exact (append_nil _).symm
    | cons b before =>
      obtain ⟨hb, htail⟩ := List.cons.inj h
      rw [ih htail, ← hb, append_assoc]
      rfl

variable (now : ℤ)

/-- A usable account that is stopped by nothing. -/
def Open (q : List Member × Member) : Prop := Usable q.1 q.2 ∧ stops q.2 now = []

instance (now : ℤ) (q : List Member × Member) : Decidable (Open now q) :=
  inferInstanceAs (Decidable (_ ∧ _))

def Stopped (q : List Member × Member) : Prop := Usable q.1 q.2 ∧ stops q.2 now ≠ []

instance (now : ℤ) (q : List Member × Member) : Decidable (Stopped now q) :=
  inferInstanceAs (Decidable (_ ∧ _))

/-- The entry that says an account is signed out. -/
def signed_out (q : List Member × Member) : Skipped := { id := q.2.id, skip := .signed_out }

/-- What the walk past some accounts leaves. -/
structure Walked (now : ℤ) (walk : List (List Member × Member)) (s s' : Seen) : Prop where
  near : s'.near = s.near ++ (walk.filter fun q => Open now q).map Prod.snd
  hit : s'.hit =
    s.hit ++ (walk.filter fun q => Stopped now q).map fun q => (q.2, (stops q.2 now).headD 0)
  out : (s'.skipped.find? fun sk => sk.skip == .signed_out) =
    (s.skipped.find? fun sk => sk.skip == .signed_out).or
      ((walk.find? fun q => q.2.signed_in == false).map signed_out)

theorem Walked.none (s : Seen) : Walked now [] s s := by
  constructor
  · simp
  · simp
  · simp

variable {now : ℤ}

theorem Walked.and_then {walk further : List (List Member × Member)} {s s' s'' : Seen}
    (h : Walked now walk s s') (h' : Walked now further s' s'') :
    Walked now (walk ++ further) s s'' := by
  constructor
  · rw [h'.near, h.near, filter_append, map_append, append_assoc]
  · rw [h'.hit, h.hit, filter_append, map_append, append_assoc]
  · rw [h'.out, h.out, find?_append, Option.map_or, Option.or_assoc]

variable {m : Member}

theorem Walked.push {earlier : List Member} {skip : Skip}
    (hskip : skip_of m earlier now = some skip) (s : Seen) :
    Walked now [(earlier, m)] s (s.push m skip) := by
  have hreason := skip_of_reason m earlier now
  rw [hskip] at hreason
  cases hreason with
  | out hin =>
    have hno : ¬ Usable earlier m := fun huse => by simp [huse.1] at hin
    constructor
    · simp [Seen.push, Open, hno]
    · simp [Seen.push, Stopped, hno]
    · simp [Seen.push, find?_append, hin, signed_out]
  | barred hin hel hbars =>
    have hno : ¬ Usable earlier m := fun huse => hel huse.2
    constructor
    · cases skip <;> simp [Seen.push, Open, hno, Skip.bars] at hbars ⊢
    · cases skip <;> simp [Seen.push, Stopped, hno, Skip.bars] at hbars ⊢
    · cases skip <;> simp [Seen.push, find?_append, hin, Skip.bars] at hbars ⊢
  | hit huse hstops =>
    constructor
    · simp [Seen.push, Open, hstops]
    · simp [Seen.push, Stopped, huse, hstops]
    · simp [Seen.push, find?_append, huse.1]
  | near huse hstops =>
    constructor
    · simp [Seen.push, Open, huse, hstops]
    · simp [Seen.push, Stopped, hstops]
    · simp [Seen.push, find?_append, huse.1]

/-- The walk either stops at an account with room or has gone past all. -/
theorem look_ok {s s' : Seen}
    (h : look now earlier rest s = .ok s') : Walked now (placed_after earlier rest) s s' := by
  induction rest generalizing earlier s with
  | nil =>
    rw [look] at h
    rw [← Except.ok.inj h]
    exact Walked.none now s
  | cons m rest ih =>
    rw [look] at h
    cases hskip : skip_of m earlier now with
    | none =>
      rw [hskip] at h
      exact nomatch h
    | some skip =>
      rw [hskip] at h
      exact (Walked.push hskip s).and_then (ih h)

theorem look_error {s : Seen} {p : Pick}
    (h : look now earlier rest s = .error p) :
    ∃ q ∈ placed_after earlier rest, Open now q ∧ p.id = q.2.id := by
  induction rest generalizing earlier s with
  | nil => exact nomatch h
  | cons m rest ih =>
    rw [look] at h
    cases hskip : skip_of m earlier now with
    | none =>
      rw [hskip] at h
      have hreason := skip_of_reason m earlier now
      rw [hskip] at hreason
      cases hreason with
      | free huse hstops =>
        rw [← Except.error.inj h]
        exact ⟨_, mem_cons_self, ⟨huse, hstops⟩, rfl⟩
    | some skip =>
      rw [hskip] at h
      obtain ⟨q, hq, hrest⟩ := ih h
      exact ⟨q, mem_cons_of_mem _ hq, hrest⟩

/-! ## The account that is picked -/

attribute [local instance] preorder_int

theorem argmin_map {α β γ : Type*} [LinearOrder γ] (f : β → γ) (g : α → β) (l : List α) :
    (l.map g).argmin f = (l.argmin fun a => f (g a)).map g := by
  induction l with
  | nil => rfl
  | cons a l ih =>
    rw [map_cons, argmin_cons, argmin_cons, ih]
    cases l.argmin fun a => f (g a) with
    | none => rfl
    | some c =>
      dsimp only [Option.map_some]
      by_cases hlt : f (g c) < f (g a)
      · rw [if_pos hlt, if_pos hlt, Option.map_some]
      · rw [if_neg hlt, if_neg hlt, Option.map_some]

/-- The accounts that new sessions could start on, in the list's order. -/
def usable (members : List Member) : List Member :=
  ((placed members).filter fun q => Usable q.1 q.2).map Prod.snd

theorem mem_usable :
    m ∈ usable members ↔ ∃ q ∈ placed members, Usable q.1 q.2 ∧ q.2 = m := by
  rw [usable, List.mem_map]
  constructor
  · rintro ⟨q, hq, rfl⟩
    rw [mem_filter, decide_eq_true_iff] at hq
    exact ⟨q, hq.1, hq.2, rfl⟩
  · rintro ⟨q, hq, huse, rfl⟩
    exact ⟨q, mem_filter.mpr ⟨hq, decide_eq_true huse⟩, rfl⟩

/-- Every account that could be used is stopped by something. -/
def AllStopped (members : List Member) (now : ℤ) : Prop := ∀ u ∈ usable members, stops u now ≠ []

instance (members : List Member) (now : ℤ) : Decidable (AllStopped members now) :=
  inferInstanceAs (Decidable (∀ u ∈ usable members, stops u now ≠ []))

theorem exists_open (h : ¬ AllStopped members now) :
    ∃ q ∈ placed members, Open now q := by
  rw [AllStopped] at h
  push Not at h
  obtain ⟨u, hu, hstops⟩ := h
  obtain ⟨q, hq, huse, rfl⟩ := mem_usable.mp hu
  exact ⟨q, hq, huse, hstops⟩

theorem AllStopped.not_open (h : AllStopped members now)
    (hq : q ∈ placed members) : ¬ Open now q := fun hopen =>
  h q.2 (mem_usable.mpr ⟨q, hq, hopen.1, rfl⟩) hopen.2

variable {current : Option String}

/-- When an account has room or is only near a limit, it is such an account that is picked. -/
theorem pick_open {p : Pick}
    (h : ¬ AllStopped members now) (hp : pick members now current = some p) :
    ∃ q ∈ placed members, Open now q ∧ p.id = q.2.id := by
  rw [pick] at hp
  cases hlook : look now [] members { skipped := [], near := [], hit := [] } with
  | error p' =>
    rw [hlook] at hp
    obtain ⟨q, hq, hopen, hid⟩ := look_error hlook
    rw [← Option.some.inj hp]
    exact ⟨q, hq, hopen, hid⟩
  | ok s =>
    rw [hlook] at hp
    dsimp only at hp
    have hnear : s.near = ((placed members).filter fun q => Open now q).map Prod.snd :=
      (look_ok hlook).near
    have hmem : ∀ m ∈ s.near, ∃ q ∈ placed members, Open now q ∧ q.2 = m := by
      intro m hm
      rw [hnear, List.mem_map] at hm
      obtain ⟨q, hq, hqm⟩ := hm
      rw [mem_filter, decide_eq_true_iff] at hq
      exact ⟨q, hq.1, hq.2, hqm⟩
    rw [choose] at hp
    cases hbest : s.near.argmin fun m => worst m now with
    | none =>
      obtain ⟨q, hq, hopen⟩ := exists_open h
      have hempty : s.near = [] := argmin_eq_none.mp hbest
      have hin : q.2 ∈ s.near := by
        rw [hnear]
        exact List.mem_map_of_mem (mem_filter.mpr ⟨hq, decide_eq_true hopen⟩)
      rw [hempty] at hin
      exact nomatch hin
    | some best =>
      rw [hbest] at hp
      dsimp only at hp
      -- the current one, where it is kept, is among those near a limit
      have hkept : (keep s.near best now current).getD best ∈ s.near := by
        cases hkeep : keep s.near best now current with
        | none => exact argmin_mem hbest
        | some c => exact mem_of_find?_eq_some (Option.filter_eq_some_iff.mp hkeep).1
      obtain ⟨q, hq, hopen, hqm⟩ := hmem _ hkept
      refine ⟨q, hq, hopen, ?_⟩
      rw [← Option.some.inj hp, hqm]

/-- What is picked when every usable account is stopped: the foremost of them by the end of its
first stop, or else the first that is signed out. -/
theorem pick_stopped (h : AllStopped members now)
    (current : Option String) : (pick members now current).map (fun p => (p.id, p.kind)) =
      match (usable members).argmin fun m => first_end m now with
      | some m => some (m.id, .soonest_reset)
      | none => ((placed members).find? fun q => q.2.signed_in == false).map fun q =>
        (q.2.id, .fallback) := by
  rw [pick]
  cases hlook : look now [] members { skipped := [], near := [], hit := [] } with
  | error p =>
    obtain ⟨q, hq, hopen, -⟩ := look_error hlook
    exact absurd hopen (h.not_open hq)
  | ok s =>
    dsimp only
    have hwalk := look_ok hlook
    -- no member is open, so the walk passes over all and keeps each as hit
    have hnear : s.near = [] := by
      rw [hwalk.near, nil_append, map_eq_nil_iff, filter_eq_nil_iff]
      intro q hq
      rw [decide_eq_true_iff]
      exact h.not_open hq
    have hhit : s.hit = (usable members).map fun m => (m, (stops m now).headD 0) := by
      rw [hwalk.hit, nil_append, usable, List.map_map]
      have hfilter : ((placed_after [] members).filter fun q => Stopped now q) =
          (placed members).filter fun q => Usable q.1 q.2 := by
        refine filter_congr fun q hq => decide_eq_decide.mpr ⟨fun hst => hst.1, fun huse => ?_⟩
        exact ⟨huse, h q.2 (mem_usable.mpr ⟨q, hq, huse, rfl⟩)⟩
      rw [hfilter]
      rfl
    have hout := hwalk.out
    rw [find?_nil, Option.none_or] at hout
    rw [choose, hnear, hhit, argmin_map, argmin_nil]
    dsimp only
    have hends : (fun m => soonest ((stops m now).headD 0)) = fun m => first_end m now := rfl
    rw [hends]
    cases (usable members).argmin fun m => first_end m now with
    | some m => rfl
    | none =>
      rw [Option.map_none, hout]
      dsimp only
      rw [placed]
      cases (placed_after [] members).find? fun q => q.2.signed_in == false with
      | none => rfl
      | some q => rfl

/-- Picking again with the picked account as the current one. -/
theorem choose_again {s : Seen} {p : Pick}
    (hids : (s.near.map Member.id).Nodup) (hp : choose s now current = some p) :
    ∃ p', choose s now (some p.id) = some p' ∧ p'.id = p.id := by
  rw [choose] at hp ⊢
  cases hbest : s.near.argmin fun m => worst m now with
  | none =>
    rw [hbest] at hp
    exact ⟨p, hp, rfl⟩
  | some best =>
    rw [hbest] at hp
    dsimp only at hp ⊢
    refine ⟨_, rfl, ?_⟩
    rw [← Option.some.inj hp]
    dsimp only
    -- the account found under the picked one's id is the picked one
    have hfind : ∀ c ∈ s.near, (s.near.find? fun m => some m.id == some c.id) = some c := by
      intro c hc
      cases hf : s.near.find? fun m => some m.id == some c.id with
      | none =>
        have hno := find?_eq_none.mp hf c hc
        simp at hno
      | some c' =>
        have heq : c'.id = c.id := by simpa using find?_some hf
        rw [inj_on_of_nodup_map hids (mem_of_find?_eq_some hf) hc heq]
    cases hkeep : keep s.near best now current with
    | none =>
      have hsame : worst best now - worst best now < KEEP_MARGIN := by
        rw [sub_self]
        decide
      rw [Option.getD_none, keep, hfind best (argmin_mem hbest), Option.filter_some,
        if_pos (decide_eq_true hsame), Option.getD_some]
    | some c =>
      obtain ⟨hc, hclose⟩ := Option.filter_eq_some_iff.mp hkeep
      rw [Option.getD_some, keep, hfind c (mem_of_find?_eq_some hc), Option.filter_some,
        if_pos hclose, Option.getD_some]

theorem pick_again {p : Pick}
    (hids : (members.map Member.id).Nodup) (hp : pick members now current = some p) :
    ∃ p', pick members now (some p.id) = some p' ∧ p'.id = p.id := by
  rw [pick] at hp ⊢
  cases hlook : look now [] members { skipped := [], near := [], hit := [] } with
  | error p' =>
    rw [hlook] at hp
    exact ⟨p, hp, rfl⟩
  | ok s =>
    rw [hlook] at hp
    refine choose_again ?_ hp
    have hsub : s.near.Sublist members := by
      rw [(look_ok hlook).near, nil_append]
      have hall := (filter_sublist (p := fun q => decide (Open now q))
        (l := placed members)).map Prod.snd
      rw [map_snd_placed] at hall
      exact hall
    exact (hsub.map Member.id).nodup hids

/-! ## When the choice is right -/

theorem soonest_pos (r : ℤ) : 0 < soonest r := by
  rw [soonest]
  by_cases hr : r ≤ 0
  · rw [if_pos hr, I64_MAX]
    omega
  · rw [if_neg hr]
    omega

/-- Of an account that is stopped, some stop lasts until the account is free again. -/
theorem exists_last (h : stops m now ≠ []) :
    ∃ t ∈ stops m now, soonest t = free_again m now := by
  rw [free_again]
  generalize stops m now = l at h ⊢
  induction l with
  | nil => exact absurd rfl h
  | cons t l ih =>
    rw [map_cons, foldr_cons]
    by_cases hl : l = []
    · refine ⟨t, mem_cons_self, ?_⟩
      rw [hl, map_nil, foldr_nil, max_eq_left (soonest_pos t).le]
    · obtain ⟨t', ht', hlast⟩ := ih hl
      rcases le_total (soonest t) (soonest t') with hle | hle
      · refine ⟨t', mem_cons_of_mem _ ht', ?_⟩
        rw [← hlast, max_eq_right hle]
      · refine ⟨t, mem_cons_self, ?_⟩
        rw [← hlast, max_eq_left hle]

theorem le_free_again {now t : ℤ} (ht : t ∈ stops m now) :
    soonest t ≤ free_again m now := by
  have hmem : soonest t ∈ (stops m now).map soonest := List.mem_map_of_mem ht
  rw [free_again]
  exact le_max_of_le' 0 hmem le_rfl

/-- An account is free again no later than another when none of its stops outlasts all the
other's. -/
theorem free_again_le {m u : Member} (hm : stops m now ≠ []) (hu : stops u now ≠ []) :
    free_again m now ≤ free_again u now ↔
      ∀ s ∈ stops m now, ∃ t ∈ stops u now, soonest s ≤ soonest t := by
  constructor
  · intro hle s hs
    obtain ⟨t, ht, hlast⟩ := exists_last hu
    exact ⟨t, ht, hlast ▸ (le_free_again hs).trans hle⟩
  · intro hall
    obtain ⟨s, hs, hlast⟩ := exists_last hm
    obtain ⟨t, ht, hle⟩ := hall s hs
    exact hlast ▸ hle.trans (le_free_again ht)

/-- What a choice of account is for. -/
structure PicksRight (members : List Member) (now : ℤ) (current : Option String) : Prop where
  /-- Nothing but a sign-in is missing, and that only of an account fallen back on. -/
  eligible : ∀ p, pick members now current = some p → ∀ q ∈ placed members, q.2.id = p.id →
    Eligible q.1 q.2 ∧ (p.kind ≠ .fallback → q.2.signed_in = true)
  /-- Where all are stopped it is one that is free again first. -/
  soonest : ∀ p, pick members now current = some p → AllStopped members now →
    ∀ m ∈ members, m.id = p.id → ∀ u ∈ usable members, free_again m now ≤ free_again u now
  again : ∀ p, pick members now current = some p →
    ∃ p', pick members now (some p.id) = some p' ∧ p'.id = p.id

/-- The usable account whose first stop ends soonest, the first on the list of several. -/
structure Foremost (members : List Member) (now : ℤ) (m : Member) : Prop where
  usable : m ∈ usable members
  soonest : ∀ u ∈ ClaudePool.usable members, first_end m now ≤ first_end u now
  before : ∀ u ∈ ClaudePool.usable members, first_end u now ≤ first_end m now →
    (ClaudePool.usable members).idxOf m ≤ (ClaudePool.usable members).idxOf u

theorem foremost_iff : Foremost members now m ↔
    (usable members).argmin (fun m => first_end m now) = some m := by
  rw [argmin_eq_some_iff]
  exact ⟨fun h => ⟨h.usable, h.soonest, h.before⟩, fun h => ⟨h.1, h.2.1, h.2.2⟩⟩

/-- The lists on which `pick` chooses right. -/
structure PicksWhen (members : List Member) (now : ℤ) : Prop where
  /-- With no usable account, the first signed-out one lacks nothing else. -/
  out : usable members = [] → ∀ q ∈ placed members, q.2.signed_in = false →
    (∀ e ∈ q.1, e.signed_in = true) → Eligible q.1 q.2
  /-- No further stop of the foremost account outlasts every stop of another. -/
  further : AllStopped members now → ∀ m, Foremost members now m → ∀ u ∈ usable members,
    ∀ s ∈ (stops m now).tail, ∃ t ∈ stops u now, soonest s ≤ soonest t

/-- Of the foremost account the first stop never counts against it. -/
theorem Foremost.free_again_le {m u : Member}
    (h : Foremost members now m) (hall : AllStopped members now) (hu : u ∈ ClaudePool.usable members) :
    free_again m now ≤ free_again u now ↔
      ∀ s ∈ (stops m now).tail, ∃ t ∈ stops u now, ClaudePool.soonest s ≤ ClaudePool.soonest t := by
  rw [ClaudePool.free_again_le (hall m h.usable) (hall u hu)]
  have hfirst := h.soonest u hu
  rw [first_end, first_end] at hfirst
  have hm := hall m h.usable
  have hu := hall u hu
  generalize stops m now = l at hm hfirst ⊢
  generalize stops u now = l' at hu hfirst ⊢
  cases l with
  | nil => exact absurd rfl hm
  | cons s l =>
    cases l' with
    | nil => exact absurd rfl hu
    | cons t l' =>
      rw [headD_cons, headD_cons] at hfirst
      rw [tail_cons, forall_mem_cons]
      exact and_iff_right ⟨t, mem_cons_self, hfirst⟩

/-- The first signed-out account is the one with none signed out above it. -/
theorem find_signed_out :
    ((placed members).find? fun q => q.2.signed_in == false) = some q ↔
      q ∈ placed members ∧ q.2.signed_in = false ∧ ∀ e ∈ q.1, e.signed_in = true := by
  constructor
  · intro hfind
    obtain ⟨hout, before, after, hsplit, hbefore⟩ := find?_eq_some_iff_append.mp hfind
    refine ⟨mem_of_find?_eq_some hfind, by simpa using hout, ?_⟩
    intro e he
    rw [above_eq hsplit, nil_append, List.mem_map] at he
    obtain ⟨q', hq', rfl⟩ := he
    simpa using hbefore q' hq'
  · rintro ⟨hq, hout, habove⟩
    obtain ⟨before, after, hsplit⟩ := append_of_mem hq
    refine find?_eq_some_iff_append.mpr ⟨by simpa using hout, before, after, hsplit, ?_⟩
    intro q' hq'
    have hin := habove q'.2 (by
      rw [above_eq hsplit, nil_append]
      exact List.mem_map_of_mem hq')
    simpa using hin

/-- With no usable account it is the first signed-out one that is picked. -/
theorem pick_out (h : usable members = []) (now : ℤ)
    (current : Option String) : (pick members now current).map (fun p => (p.id, p.kind)) =
      ((placed members).find? fun q => q.2.signed_in == false).map fun q => (q.2.id, .fallback) := by
  have hall : AllStopped members now := by
    rw [AllStopped, h]
    exact fun u hu => absurd hu not_mem_nil
  rw [pick_stopped hall, h, argmin_nil]

/-- With usable accounts that are all stopped, it is the foremost that is picked. -/
theorem pick_foremost (h : AllStopped members now)
    (hm : Foremost members now m) (current : Option String) :
    (pick members now current).map (fun p => (p.id, p.kind)) = some (m.id, .soonest_reset) := by
  rw [pick_stopped h, foremost_iff.mp hm]

theorem exists_foremost (now : ℤ) (h : usable members ≠ []) :
    ∃ m, Foremost members now m := by
  cases hbest : (usable members).argmin fun m => first_end m now with
  | none => exact absurd (argmin_eq_none.mp hbest) h
  | some m => exact ⟨m, foremost_iff.mpr hbest⟩

section
variable {members : List Member} {now : ℤ} {current : Option String} {p : Pick}

/-- With usable accounts that are all stopped, a pick is of the foremost. -/
theorem foremost_of_pick (hall : AllStopped members now) (hsome : usable members ≠ [])
    (hp : pick members now current = some p) : ∃ m, Foremost members now m ∧ p.id = m.id ∧
      p.kind = .soonest_reset := by
  obtain ⟨m, hm⟩ := exists_foremost now hsome
  have hpick := pick_foremost hall hm current
  rw [hp, Option.map_some] at hpick
  obtain ⟨hid, hkind⟩ := Prod.mk.inj (Option.some.inj hpick)
  exact ⟨m, hm, hid, hkind⟩

/-- Every pick but a fallback is of a usable account. -/
theorem usable_of_pick (hp : pick members now current = some p)
    (h : ¬ (usable members = [] ∧ p.kind = .fallback)) :
    ∃ q ∈ placed members, Usable q.1 q.2 ∧ p.id = q.2.id := by
  by_cases hall : AllStopped members now
  · by_cases hnone : usable members = []
    · have hpick := pick_out hnone now current
      rw [hp, Option.map_some] at hpick
      obtain ⟨q, -, hq⟩ := Option.map_eq_some_iff.mp hpick.symm
      exact absurd ⟨hnone, (Prod.mk.inj hq).2.symm⟩ h
    · obtain ⟨m, hm, hid, -⟩ := foremost_of_pick hall hnone hp
      obtain ⟨q, hq, huse, rfl⟩ := mem_usable.mp hm.usable
      exact ⟨q, hq, huse, hid⟩
  · obtain ⟨q, hq, hopen, hid⟩ := pick_open hall hp
    exact ⟨q, hq, hopen.1, hid⟩

theorem PicksWhen.eligible (hids : (members.map Member.id).Nodup) (h : PicksWhen members now)
    (hp : pick members now current = some p) {q : List Member × Member}
    (hq : q ∈ placed members) (hid : q.2.id = p.id) :
    Eligible q.1 q.2 ∧ (p.kind ≠ .fallback → q.2.signed_in = true) := by
  by_cases hfall : usable members = [] ∧ p.kind = .fallback
  · have hpick := pick_out hfall.1 now current
    rw [hp, Option.map_some] at hpick
    obtain ⟨q', hfind, hq'⟩ := Option.map_eq_some_iff.mp hpick.symm
    obtain ⟨hplaced, hout, habove⟩ := find_signed_out.mp hfind
    have hsame : q = q' := placed_inj hids hq hplaced (hid.trans (Prod.mk.inj hq').1.symm)
    rw [hsame]
    exact ⟨h.out hfall.1 q' hplaced hout habove, fun hkind => absurd hfall.2 hkind⟩
  · obtain ⟨q', hq', huse, hid'⟩ := usable_of_pick hp hfall
    have hsame : q = q' := placed_inj hids hq hq' (hid.trans hid')
    rw [hsame]
    exact ⟨huse.2, fun _ => huse.1⟩

theorem PicksWhen.free_again_le (hids : (members.map Member.id).Nodup) (h : PicksWhen members now)
    (hp : pick members now current = some p) (hall : AllStopped members now)
    {m u : Member} (hm : m ∈ members) (hid : m.id = p.id) (hu : u ∈ usable members) :
    free_again m now ≤ free_again u now := by
  obtain ⟨m', hm', hid', -⟩ := foremost_of_pick hall (ne_nil_of_mem hu) hp
  have hmem : m' ∈ members := by
    obtain ⟨q, hq, -, rfl⟩ := mem_usable.mp hm'.usable
    rw [← map_snd_placed members]
    exact List.mem_map_of_mem hq
  have hsame : m = m' := inj_on_of_nodup_map hids hm hmem (hid.trans hid')
  rw [hsame, hm'.free_again_le hall hu]
  exact h.further hall m' hm' u hu

/-- `pick` chooses right, whatever account is the current one, exactly when the first signed-out
account is as good as any wherever none is usable, and, wherever all are stopped, the account
whose first stop ends soonest has no further stop that outlasts another account's stops. -/
theorem picks_right_iff (members : List Member) (now : ℤ) (current : Option String)
    (hids : (members.map Member.id).Nodup) :
    PicksRight members now current ↔ PicksWhen members now := by
  constructor
  · intro h
    constructor
    · intro hnone q hq hout habove
      have hpick := pick_out hnone now current
      rw [find_signed_out.mpr ⟨hq, hout, habove⟩, Option.map_some] at hpick
      obtain ⟨p, hp, hpq⟩ := Option.map_eq_some_iff.mp hpick
      exact (h.eligible p hp q hq (Prod.mk.inj hpq).1.symm).1
    · intro hall m hm u hu
      obtain ⟨p, hp, hpm⟩ := Option.map_eq_some_iff.mp (pick_foremost hall hm current)
      obtain ⟨q, hq, -, rfl⟩ := mem_usable.mp hm.usable
      have hmem : q.2 ∈ members := by
        rw [← map_snd_placed members]
        exact List.mem_map_of_mem hq
      exact (hm.free_again_le hall hu).mp
        (h.soonest p hp hall q.2 hmem (Prod.mk.inj hpm).1.symm u hu)
  · intro h
    constructor
    · exact fun p hp q hq hid => h.eligible hids hp hq hid
    · exact fun p hp hall m hm hid u hu => h.free_again_le hids hp hall hm hid hu
    · exact fun p hp => pick_again hids hp

end

/-! ## Two accounts that are stopped -/

/-- A signed-in account of one's own. -/
def own (id : String) (stopped_until : ℤ) (five_hour weekly : Option Window) : Member where
  id
  signed_in := true
  identity := some id
  allowed := true
  confirmed := true
  five_hour
  weekly
  stopped_until
  on_hold := false

/-- One that a report stops for a minute and its weekly window for a day, and one that waits an
hour for its five-hour window. -/
def minute_and_day : List Member :=
  [own "a" 1060 none (some { used := 100, resets_at := 87400 }),
    own "b" 0 (some { used := 100, resets_at := 4600 }) none]

/-- The one that waits for a day is picked. -/
theorem longer_stop_is_picked : ¬ ∀ (members : List Member) (now : ℤ) (current : Option String),
    (members.map Member.id).Nodup → PicksRight members now current := by
  intro h
  have hright := h minute_and_day 1000 none (by decide +kernel)
  have hpick : (pick minute_and_day 1000 none).map Pick.id = some "a" := by decide +kernel
  obtain ⟨p, hp, hid⟩ := Option.map_eq_some_iff.mp hpick
  have hle := hright.soonest p hp (by decide +kernel) (own "a" 1060 none (some ⟨100, 87400⟩))
    (by decide +kernel) hid.symm (own "b" 0 (some ⟨100, 4600⟩) none) (by decide +kernel)
  exact absurd hle (by decide +kernel)

/-- Where the report is all that stops the one, the choice is right. -/
theorem picks_right_minute : PicksRight [own "a" 1060 none none,
    own "b" 0 (some { used := 100, resets_at := 4600 }) none] 1000 none := by
  refine (picks_right_iff _ 1000 none (by decide +kernel)).mpr ⟨fun hnone => ?_, ?_⟩
  · exact absurd hnone (by decide +kernel)
  · intro _ m hm u _ s hs
    have hone : ∀ m ∈ usable [own "a" 1060 none none,
        own "b" 0 (some { used := 100, resets_at := 4600 }) none], (stops m 1000).tail = [] := by
      decide +kernel
    rw [hone m hm.usable] at hs
    exact nomatch hs

end Lpm.ClaudePool
