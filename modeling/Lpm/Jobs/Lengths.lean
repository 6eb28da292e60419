/-
The lengths an interval job may name, and the sums the scheduler makes of them.

A length is a number of hours, or a text: a number and its unit, or two of them. The
texts are read with a checked product (`parse_text_iff`); a bare integer is multiplied
in a `u64` unchecked, and a wrapped product of five minutes or more is taken as the
length. Nothing bounds a length that fits a `u64`, so the time it is added to may leave
the range of an instant. A gap is drawn for some seed at the very end of its band
(`draw_onto`), which makes `last_run` plus the longest gap the bound that counts.
-/
import Lpm.Jobs.Countdown

set_option autoImplicit false

open RustText Fallible

namespace Lpm.Jobs

open List Option

section
variable {ops : TextOps}

/-! ## What a length says -/

/-- The seconds a text names: its number times its unit, hours when it has none. -/
inductive Length (s : Str) : ℕ → Prop where
  | unit {num : Str} {unit : Char} {mult n : ℕ} (htext : s = num ++ [unit])
    (hunit : unit_secs unit = some mult) (hnum : parse_u64 (trim num) = some n) :
    Length s (n * mult)
  | hours {n : ℕ} (hnone : s.getLast?.bind unit_secs = none) (hnum : parse_u64 s = some n) :
    Length s (n * 3600)

/-- The shortest and the longest gap a value names, whatever their size. -/
inductive Written (ops : TextOps) : EveryValue → ℕ → ℕ → Prop where
  | hours {h : ℤ} (hpos : 0 < h) : Written ops (.Int h) (h.toNat * 3600) (h.toNat * 3600)
  | text {s : Str} {n : ℕ} (hdash : '-' ∉ ops.to_lowercase (trim s))
    (hlen : Length (ops.to_lowercase (trim s)) n) : Written ops (.Str s) n n
  | band {s a b : Str} {lo hi : ℕ} (htext : ops.to_lowercase (trim s) = a ++ '-' :: b)
    (hdash : '-' ∉ a) (ha : trim a ≠ []) (hb : trim b ≠ [])
    (hlo : Length (ops.to_lowercase (trim (carry_unit (trim a) (trim b)))) lo)
    (hhi : Length (ops.to_lowercase (trim (trim b))) hi) : Written ops (.Str s) lo hi

/-- Long enough for an interval, and no longer than a `u64` counts. -/
def Allowed (lo hi : ℕ) : Prop := MIN_INTERVAL_SECS ≤ lo ∧ lo ≤ hi ∧ hi < 2 ^ 64

theorem length_iff {s : Str} {secs : ℕ} :
    Length s secs ↔ ∃ n, parse_u64 (length_parts s).1 = some n ∧ n * (length_parts s).2 = secs := by
  unfold length_parts
  constructor
  · intro h
    cases h with
    | @unit num unit mult n htext hunit hnum =>
      have hlast : s.getLast? = some unit := by rw [htext, getLast?_concat]
      rw [hlast, bind_some, hunit, htext, dropLast_concat]
      exact ⟨n, hnum, rfl⟩
    | hours hnone hnum =>
      rw [hnone]
      exact ⟨_, hnum, rfl⟩
  · rintro ⟨n, hnum, rfl⟩
    cases hlast : s.getLast?.bind unit_secs with
    | none =>
      rw [hlast] at hnum
      exact .hours hlast hnum
    | some mult =>
      rw [hlast] at hnum
      obtain ⟨unit, hunit, hmult⟩ := bind_eq_some_iff.mp hlast
      exact .unit (dropLast_append_getLast? unit hunit).symm hmult hnum

/-- A text is read as a length when its product fits and is no less than the least. -/
theorem parse_secs_iff {s : Str} {secs : ℕ} : parse_every_secs ops (.Str s) = .ok secs ↔
    Length (ops.to_lowercase (trim s)) secs ∧ MIN_INTERVAL_SECS ≤ secs ∧ secs < 2 ^ 64 := by
  rw [length_iff]
  unfold parse_every_secs every_secs
  dsimp only
  cases hnum : parse_u64 (length_parts (ops.to_lowercase (trim s))).1 with
  | none =>
    constructor
    · intro h
      cases h
    · rintro ⟨⟨n, hn, -⟩, -⟩
      cases hn
  | some n =>
    dsimp only
    constructor
    · intro h
      split_ifs at h with hlt
      · obtain ⟨secs', hsecs, h⟩ := bind_ok h
        obtain rfl := Except.ok.inj hsecs
        split_ifs at h with hmin
        obtain rfl := Except.ok.inj h
        exact ⟨⟨n, rfl, rfl⟩, not_lt.mp hmin, hlt⟩
      · cases h
    · rintro ⟨⟨n', hn', rfl⟩, hmin, hlt⟩
      cases hn'
      rw [if_pos hlt]
      change (if _ then _ else _) = _
      rw [if_neg (not_lt.mpr hmin)]
      rfl

/-- A text gives the band it writes, and is rejected when that does not fit. -/
theorem parse_text_iff {s : Str} {lo hi : ℕ} : parse_every_band ops (.Str s) = .ok (lo, hi) ↔
    Written ops (.Str s) lo hi ∧ Allowed lo hi := by
  unfold parse_every_band
  dsimp only
  -- a text without a hyphen is one length, else it is a band
  cases hsplit : split_once '-' (ops.to_lowercase (trim s)) with
  | none =>
    have hdash := split_once_eq_none hsplit
    constructor
    · intro h
      obtain ⟨secs, hsecs, heq⟩ := map_ok h
      cases heq
      obtain ⟨hlen, hmin, hmax⟩ := parse_secs_iff.mp hsecs
      exact ⟨.text hdash hlen, hmin, le_refl _, hmax⟩
    · rintro ⟨hwritten, hmin, -, hmax⟩
      cases hwritten with
      | text _ hlen =>
        dsimp only
        rw [parse_secs_iff.mpr ⟨hlen, hmin, hmax⟩]
        rfl
      | band htext _ _ _ _ _ =>
        rw [htext] at hdash
        exact absurd (mem_append_right _ mem_cons_self) hdash
  | some ab =>
    obtain ⟨a, b⟩ := ab
    obtain ⟨htext, ha⟩ := split_once_eq hsplit
    dsimp only
    constructor
    · intro h
      split_ifs at h with hempty
      rw [Bool.or_eq_true, not_or, List.isEmpty_iff, List.isEmpty_iff] at hempty
      obtain ⟨min, hmin, h⟩ := bind_ok h
      obtain ⟨max, hmax, h⟩ := bind_ok h
      split_ifs at h with hback
      cases h
      obtain ⟨hlo, hleast, -⟩ := parse_secs_iff.mp hmin
      obtain ⟨hhi, -, hmost⟩ := parse_secs_iff.mp hmax
      exact ⟨.band htext ha hempty.1 hempty.2 hlo hhi, hleast, not_lt.mp hback, hmost⟩
    · rintro ⟨hwritten, hleast, hle, hmost⟩
      cases hwritten with
      | text hdash _ =>
        rw [htext] at hdash
        exact absurd (mem_append_right _ mem_cons_self) hdash
      | @band _ a' b' _ _ htext' hdash hne hne' hlo hhi =>
        rw [htext', split_once_append hdash] at hsplit
        obtain ⟨rfl, rfl⟩ := Prod.ext_iff.mp (some.inj hsplit)
        rw [if_neg (by simp [hne, hne']), parse_secs_iff.mpr ⟨hlo, hleast, by omega⟩]
        -- the second length is read behind the check of the first
        change (do
          let max ← parse_every_secs ops (.Str (trim b'))
          if max < lo then _ else return (lo, max)) = _
        rw [parse_secs_iff.mpr ⟨hhi, by omega, hmost⟩]
        change (if _ then _ else _) = _
        rw [if_neg (not_lt.mpr hle)]
        rfl

/-- An integer gives what is left of its product in a `u64`. -/
theorem parse_hours_iff {h : ℤ} {lo hi : ℕ} : parse_every_band ops (.Int h) = .ok (lo, hi) ↔
    0 < h ∧ MIN_INTERVAL_SECS ≤ h.toNat * 3600 % 2 ^ 64 ∧
      lo = h.toNat * 3600 % 2 ^ 64 ∧ hi = h.toNat * 3600 % 2 ^ 64 := by
  unfold parse_every_band parse_every_secs every_secs
  dsimp only
  by_cases hpos : h ≤ 0
  · rw [if_pos hpos]
    constructor
    · intro hok
      cases hok
    · rintro ⟨hlt, -⟩
      exact absurd hpos (not_le.mpr hlt)
  · rw [if_neg hpos]
    change Except.map _ (if _ then _ else _) = _ ↔ _
    split_ifs with hmin
    · constructor
      · intro hok
        cases hok
      · rintro ⟨-, hge, -⟩
        exact absurd hmin (not_lt.mpr hge)
    · constructor
      · intro hok
        cases hok
        exact ⟨not_le.mp hpos, not_lt.mp hmin, rfl, rfl⟩
      · rintro ⟨-, -, rfl, rfl⟩
        rfl

end

/-! ## Draws -/

/-- What `FNV_PRIME` is undone by. -/
def FNV_UNDO : UInt64 := 0xce965057aff6957b

/-- A fold of the hash takes every value, for some value it starts from. -/
theorem fnv_onto (bytes : List UInt64) (target : UInt64) :
    ∃ seed, bytes.foldl (fun h byte => (h ^^^ byte) * FNV_PRIME) seed = target := by
  induction bytes with
  | nil => exact ⟨target, rfl⟩
  | cons byte bytes ih =>
    obtain ⟨mid, hmid⟩ := ih
    have hundo : FNV_UNDO * FNV_PRIME = 1 := by decide
    refine ⟨(mid * FNV_UNDO) ^^^ byte, ?_⟩
    rw [foldl_cons, UInt64.xor_assoc, UInt64.xor_self, UInt64.xor_zero, UInt64.mul_assoc,
      hundo, UInt64.mul_one, hmid]

theorem draw_onto (a : ℤ) (b : ℕ) (target : UInt64) : ∃ seed, draw seed a b = target :=
  fnv_onto _ _

/-- Some seed draws the longest gap. -/
theorem longest_gap {lo hi : ℕ} (hle : lo ≤ hi) (hhi : hi < 2 ^ 64) (last_run : ℕ) :
    ∃ seed, interval_gap lo hi last_run seed = hi := by
  obtain ⟨seed, hseed⟩ := draw_onto last_run 0 (UInt64.ofNat (hi - lo))
  refine ⟨seed, ?_⟩
  unfold interval_gap
  split_ifs with h
  · exact le_antisymm hle h
  · have hfit : (hi - lo) % 2 ^ 64 = hi - lo := Nat.mod_eq_of_lt (by omega)
    rw [hseed, UInt64.toNat_ofNat', hfit, Nat.mod_eq_of_lt (Nat.lt_succ_self _)]
    omega

/-! ## The sums of the scheduler -/

/-- The scheduler counts right: the number of lengths it draws from and the gap it draws
fit a `u64`, so does the time the gap ends at, and reading that time and the clock as
signed instants changes neither. -/
structure InRange (lo hi last_run now : ℕ) (seed : UInt64) : Prop where
  choices : lo < hi → hi - lo + 1 < 2 ^ 64
  gap : interval_gap lo hi last_run seed < 2 ^ 64
  due : last_run + interval_gap lo hi last_run seed < 2 ^ 64
  instant : as_i64 (last_run + interval_gap lo hi last_run seed) =
    (last_run + interval_gap lo hi last_run seed : ℕ)
  clock : as_i64 now = now

theorem as_i64_exact_iff {n : ℕ} : as_i64 n = n ↔ n < 2 ^ 63 := by
  unfold as_i64
  split_ifs with h
  · exact iff_of_true rfl h
  · refine iff_of_false ?_ h
    omega

theorem in_range_iff {lo hi last_run now : ℕ} (hfits : Allowed lo hi) :
    (∀ seed, InRange lo hi last_run now seed) ↔ last_run + hi < 2 ^ 63 ∧ now < 2 ^ 63 := by
  obtain ⟨hmin, hle, hmax⟩ := hfits
  have hleast : MIN_INTERVAL_SECS = 300 := rfl
  constructor
  · intro h
    obtain ⟨seed, hseed⟩ := longest_gap hle hmax last_run
    have hlast := as_i64_exact_iff.mp (h seed).instant
    rw [hseed] at hlast
    exact ⟨hlast, as_i64_exact_iff.mp (h seed).clock⟩
  · rintro ⟨hsum, hnow⟩ seed
    obtain ⟨-, hgap⟩ := interval_gap_bounds last_run seed hle
    exact ⟨fun _ => by omega, by omega, by omega, as_i64_exact_iff.mpr (by omega),
      as_i64_exact_iff.mpr hnow⟩

/-- What is promised of a value: it is rejected, or the band it gives is the one it
writes, in order and long enough, and the scheduler counts right with it. -/
def Exact (ops : TextOps) (v : EveryValue) (last_run now : ℕ) : Prop :=
  ∀ lo hi, parse_every_band ops v = .ok (lo, hi) →
    (Written ops v lo hi ∧ lo ≤ hi ∧ MIN_INTERVAL_SECS ≤ lo ∧ MIN_INTERVAL_SECS ≤ hi) ∧
      ∀ seed, InRange lo hi last_run now seed

/-- That holds exactly when the product of a bare integer fits a `u64`, or is taken for
less than the least length, and when the longest gap that is written, added to the last
run, is an instant, as is the clock. -/
theorem every_exact_iff (ops : TextOps) (v : EveryValue) (last_run now : ℕ) :
    Exact ops v last_run now ↔
      (∀ h, v = .Int h → h.toNat * 3600 < 2 ^ 64 ∨ h.toNat * 3600 % 2 ^ 64 < MIN_INTERVAL_SECS) ∧
        ∀ lo hi, Written ops v lo hi → Allowed lo hi → last_run + hi < 2 ^ 63 ∧ now < 2 ^ 63 := by
  -- a value that is written and fits is accepted as written
  have haccept : ∀ lo hi, Written ops v lo hi → Allowed lo hi →
      parse_every_band ops v = .ok (lo, hi) := by
    intro lo hi hwritten hfits
    cases v with
    | Str s => exact parse_text_iff.mpr ⟨hwritten, hfits⟩
    | Int h =>
      cases hwritten with
      | hours hpos =>
        have hmod := Nat.mod_eq_of_lt hfits.2.2
        exact parse_hours_iff.mpr ⟨hpos, by rw [hmod]; exact hfits.1, hmod.symm, hmod.symm⟩
  constructor
  · intro hexact
    refine ⟨?_, ?_⟩
    · rintro h rfl
      by_contra hbad
      rw [not_or, not_lt, not_lt] at hbad
      have hpos : 0 < h := by omega
      obtain ⟨⟨hwritten, -⟩, -⟩ := hexact _ _ (parse_hours_iff.mpr ⟨hpos, hbad.2, rfl, rfl⟩)
      generalize hrest : h.toNat * 3600 % 2 ^ 64 = rest at hwritten
      cases hwritten
      omega
    · intro lo hi hwritten hfits
      obtain ⟨-, hrange⟩ := hexact lo hi (haccept lo hi hwritten hfits)
      exact (in_range_iff hfits).mp hrange
  · rintro ⟨hproduct, hsum⟩ lo hi hok
    have hboth : Written ops v lo hi ∧ Allowed lo hi := by
      cases v with
      | Str s => exact parse_text_iff.mp hok
      | Int h =>
        obtain ⟨hpos, hmin, rfl, rfl⟩ := parse_hours_iff.mp hok
        rcases hproduct h rfl with hlt | hless
        · rw [Nat.mod_eq_of_lt hlt] at hmin ⊢
          exact ⟨.hours hpos, hmin, le_refl _, hlt⟩
        · exact absurd hmin (not_le.mpr hless)
    obtain ⟨hwritten, hfits⟩ := hboth
    exact ⟨⟨hwritten, hfits.2.1, hfits.1, hfits.1.trans hfits.2.1⟩,
      (in_range_iff hfits).mpr (hsum lo hi hwritten hfits)⟩

/-- An integer of hours beyond what a `u64` of seconds holds: it is taken for an hour. -/
theorem every_wraps : parse_every_band ascii_ops (.Int 5124095576030432) = .ok (3584, 3584) ∧
    ¬ Exact ascii_ops (.Int 5124095576030432) 1774947600 1774947600 := by
  have h : parse_every_band ascii_ops (.Int 5124095576030432) = .ok (3584, 3584) := by rfl
  refine ⟨h, ?_⟩
  intro hexact
  obtain ⟨⟨hwritten, -⟩, -⟩ := hexact _ _ h
  generalize hrest : 3584 = rest at hwritten
  cases hwritten
  omega

end Lpm.Jobs
