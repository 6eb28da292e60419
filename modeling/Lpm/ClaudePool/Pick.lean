/-
The account a new session starts on, `claude_pool_pick.rs`.

The pool is a list, and `pick` goes down it until an account has room. Those it goes past
are kept with the reason, of which each has one: the first that `skip_of` comes to. What is
near a limit or has hit one is looked at again when no account had room.

Of an account that is stopped only that first reason's end is kept. It may be stopped by a
report and by both windows; `stops` below is all of it, in the order `skip_of` looks.
-/
import Mathlib.Algebra.Order.Ring.Rat
import Mathlib.Data.List.MinMax

set_option autoImplicit false

namespace Lpm.ClaudePool

/-! ## Accounts and why they are skipped -/

def SWITCH_AT : ℚ := 90

/-- How much more room another account near a limit needs before sessions leave the current one. -/
def KEEP_MARGIN : ℚ := 3

structure Window where
  used : ℚ
  /-- Unix seconds; 0 when the provider gave none. -/
  resets_at : ℤ
  deriving DecidableEq

structure Member where
  id : String
  signed_in : Bool
  /-- The same for two directories signed in as one account. -/
  identity : Option String
  allowed : Bool
  confirmed : Bool
  five_hour : Option Window
  weekly : Option Window
  /-- A reported stop until this time, 0 when there is none. -/
  stopped_until : ℤ
  on_hold : Bool
  deriving DecidableEq

inductive Win where
  | five_hour
  | weekly
  deriving DecidableEq

inductive Skip where
  | signed_out
  | same_account (as_id : String)
  | not_allowed
  | unconfirmed
  | on_hold
  | hit (window : Option Win) (resets_at : ℤ)
  | near (window : Win) (percent : ℚ) (resets_at : ℤ)
  deriving DecidableEq

inductive PickKind where
  | first
  | most_room
  | soonest_reset
  | fallback
  deriving DecidableEq

structure Skipped where
  id : String
  skip : Skip
  deriving DecidableEq

structure Pick where
  id : String
  kind : PickKind
  skipped : List Skipped
  deriving DecidableEq

/-- A window's reading, unless the window was reset since. -/
def live (w : Option Window) (now : ℤ) : Option Window :=
  w.filter fun w => w.resets_at = 0 ∨ w.resets_at > now

variable (m : Member)

def windows (now : ℤ) : List (Win × Option Window) :=
  [(.five_hour, live m.five_hour now), (.weekly, live m.weekly now)]

/-- The first window that is used up to a bound. -/
def used_up (bound : ℚ) (m : Member) (now : ℤ) : Option (Win × Window) :=
  (windows m now).findSome? fun kw => (kw.2.filter fun w => bound ≤ w.used).map fun w => (kw.1, w)

variable (earlier : List Member)

/-- The account higher up that this one is the same as. -/
def same_as : Option Member :=
  m.identity.bind fun ident => earlier.find? fun e => e.signed_in && e.identity == some ident

/-- Why an account can't take new sessions, or none when it can. -/
def skip_of (now : ℤ) : Option Skip :=
  if m.signed_in = false then some .signed_out
  else match same_as m earlier with
  | some first => some (.same_account first.id)
  | none =>
    if m.allowed = false then some .not_allowed
    else if m.confirmed = false then some .unconfirmed
    else if m.on_hold = true then some .on_hold
    else if m.stopped_until > now then some (.hit none m.stopped_until)
    else match used_up 100 m now with
    | some (win, w) => some (.hit (some win) w.resets_at)
    | none => (used_up SWITCH_AT m now).map fun kw => .near kw.1 kw.2.used kw.2.resets_at

def worst (now : ℤ) : ℚ :=
  ((windows m now).filterMap fun kw => kw.2.map Window.used).foldl max 0

/-! ## The choice -/

/-- What a walk down the list has gone past. -/
structure Seen where
  skipped : List Skipped
  near : List Member
  hit : List (Member × ℤ)

def Seen.push (s : Seen) (m : Member) (skip : Skip) : Seen where
  skipped := s.skipped ++ [{ id := m.id, skip }]
  near := match skip with
    | .near .. => s.near ++ [m]
    | _ => s.near
  hit := match skip with
    | .hit _ resets_at => s.hit ++ [(m, resets_at)]
    | _ => s.hit

/-- The walk, which ends early at an account with room. -/
def look (now : ℤ) : List Member → List Member → Seen → Except Pick Seen
  | _, [], s => .ok s
  | earlier, m :: rest, s =>
    match skip_of m earlier now with
    | none => .error { id := m.id, kind := .first, skipped := s.skipped }
    | some skip => look now (earlier ++ [m]) rest (s.push m skip)

def I64_MAX : ℤ := 2 ^ 63 - 1

/-- When a stop ends; one whose end is not known comes last. -/
def soonest (r : ℤ) : ℤ := if r ≤ 0 then I64_MAX else r

/-- The account near a limit that new sessions go on with, where `best` has the most room. -/
def keep (near : List Member) (best : Member) (now : ℤ) (current : Option String) : Option Member :=
  (near.find? fun m => some m.id == current).filter fun c =>
    worst c now - worst best now < KEEP_MARGIN

-- the order on the integers that runs
local instance preorder_int : Preorder ℤ := Int.instLinearOrder.toPreorder

/-- What is picked when no account has room. -/
def choose (s : Seen) (now : ℤ) (current : Option String) : Option Pick :=
  match s.near.argmin fun m => worst m now with
  | some best =>
    some { id := ((keep s.near best now current).getD best).id, kind := .most_room, skipped := s.skipped }
  | none =>
    match s.hit.argmin fun mr => soonest mr.2 with
    | some best => some { id := best.1.id, kind := .soonest_reset, skipped := s.skipped }
    | none => do
      let out ← s.skipped.find? fun sk => sk.skip == .signed_out
      return { id := out.id, kind := .fallback, skipped := s.skipped }

/-- `current` is the account the pool's new sessions use now. -/
def pick (members : List Member) (now : ℤ) (current : Option String) : Option Pick :=
  match look now [] members { skipped := [], near := [], hit := [] } with
  | .error p => some p
  | .ok s => choose s now current

/-! ## What an account is worth -/

/-- Signed in as the account of a signed-in member higher up. -/
def SameAsAbove (earlier : List Member) (m : Member) : Prop :=
  m.identity ≠ none ∧ ∃ e ∈ earlier, e.signed_in = true ∧ e.identity = m.identity

instance (earlier : List Member) (m : Member) : Decidable (SameAsAbove earlier m) :=
  inferInstanceAs (Decidable (_ ∧ _))

/-- Nothing but a sign-in stands between the account and new sessions. -/
structure Eligible (earlier : List Member) (m : Member) : Prop where
  own : ¬ SameAsAbove earlier m
  allowed : m.allowed = true
  confirmed : m.confirmed = true
  free : m.on_hold = false

theorem eligible_iff {earlier : List Member} {m : Member} : Eligible earlier m ↔
    ¬ SameAsAbove earlier m ∧ m.allowed = true ∧ m.confirmed = true ∧ m.on_hold = false :=
  ⟨fun h => ⟨h.own, h.allowed, h.confirmed, h.free⟩, fun h => ⟨h.1, h.2.1, h.2.2.1, h.2.2.2⟩⟩

instance (earlier : List Member) (m : Member) : Decidable (Eligible earlier m) :=
  decidable_of_iff _ eligible_iff.symm

/-- An account that new sessions could start on, now or once it is no longer stopped. -/
def Usable (earlier : List Member) (m : Member) : Prop := m.signed_in = true ∧ Eligible earlier m

instance (earlier : List Member) (m : Member) : Decidable (Usable earlier m) :=
  inferInstanceAs (Decidable (_ ∧ _))

variable (m : Member) (now : ℤ)

/-- The resets of the windows that have hit their limit. -/
def full : List ℤ :=
  (windows m now).filterMap fun kw => (kw.2.filter fun w => 100 ≤ w.used).map Window.resets_at

/-- The ends of all that stops an account: the reported stop, the five-hour window, the weekly one. -/
def stops : List ℤ :=
  (if m.stopped_until > now then [m.stopped_until] else []) ++ full m now

/-- When the last of an account's stops ends. -/
def free_again : ℤ := ((stops m now).map soonest).foldr max 0

/-- When the first of an account's stops in that order ends. -/
def first_end : ℤ := soonest ((stops m now).headD 0)

theorem same_as_eq_none {m : Member} {earlier : List Member} :
    same_as m earlier = none ↔ ¬ SameAsAbove earlier m := by
  rw [same_as, SameAsAbove]
  cases hid : m.identity with
  | none => simp
  | some ident =>
    rw [Option.bind_some, List.find?_eq_none]
    simp

theorem used_up_full :
    (used_up 100 m now).map (fun kw => kw.2.resets_at) = (full m now).head? := by
  rw [used_up, full, windows]
  generalize live m.five_hour now = five
  generalize live m.weekly now = week
  cases hfive : five.filter fun w => (100 : ℚ) ≤ w.used with
  | some w => simp [hfive]
  | none =>
    cases hweek : week.filter fun w => (100 : ℚ) ≤ w.used with
    | some w => simp [hfive, hweek]
    | none => simp [hfive, hweek]

end Lpm.ClaudePool
