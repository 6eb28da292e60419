/-
The modes of a terminal that outlive the output they were set in: `ptymodes.rs`.

`Modes` follows a stream byte by byte and remembers the last setting of each mode;
`prelude` writes them all down again. What is shown here is that the two fit: a fresh
tracker that reads a prelude and then any later part of the stream ends up with the
settings of the tracker that read all of it. The later part may start anywhere, in the
middle of a sequence too, for whatever it switches has been switched last in the whole
stream as well.
-/
import Lpm.Lib.Utf8
import Lpm.Lib.Writes
import Mathlib.Data.List.Nodup

set_option autoImplicit false

open RustText Utf8 Writes

namespace Lpm.Terminal

open Option

/-! ## The tracker -/

def MAX_PARAMS : ℕ := 16

inductive Scan where
  | ground
  | esc
  | csi
  | «private»
  deriving DecidableEq

/-- The modes themselves. `none` until the stream has touched a mouse mode; the inner
value is its state. -/
structure Settings where
  alt_screen : Bool := false
  mouse_tracking : Option (Option ℕ) := none
  mouse_encoding : Option (Option ℕ) := none
  flags : List (ℕ × Bool) := []
  deriving DecidableEq

structure Modes extends Settings where
  scan : Scan := .ground
  params : List ℕ := []
  param : ℕ := 0

/-- The flag of a mode, found or added behind the others. -/
def set_flag (mode : ℕ) (set : Bool) : List (ℕ × Bool) → List (ℕ × Bool)
  | [] => [(mode, set)]
  | (m, b) :: flags =>
    if m = mode then (m, set) :: flags else (m, b) :: set_flag mode set flags

def is_alt_screen (mode : ℕ) : Bool := mode == 47 || mode == 1047 || mode == 1049

def is_mouse_tracking (mode : ℕ) : Bool :=
  mode == 9 || mode == 1000 || mode == 1002 || mode == 1003

def is_mouse_encoding (mode : ℕ) : Bool := mode == 1006 || mode == 1016

def is_flag (mode : ℕ) : Bool := mode == 1 || mode == 25 || mode == 1004 || mode == 2004

/-- `bool::then_some`. -/
def then_some (set : Bool) (mode : ℕ) : Option ℕ := if set then some mode else none

def Settings.apply (s : Settings) (mode : ℕ) (set : Bool) : Settings :=
  if is_alt_screen mode then { s with alt_screen := set }
  else if is_mouse_tracking mode then { s with mouse_tracking := some (then_some set mode) }
  else if is_mouse_encoding mode then { s with mouse_encoding := some (then_some set mode) }
  else if is_flag mode then { s with flags := set_flag mode set s.flags }
  else s

variable (m : Modes)

def Modes.apply (mode : ℕ) (set : Bool) : Modes :=
  { m with toSettings := m.toSettings.apply mode set }

def Modes.end_param : Modes :=
  { m with
    params := if m.params.length < MAX_PARAMS then m.params ++ [m.param] else m.params
    param := 0 }

/-- `u16::saturating_mul` and `saturating_add`, one digit on. -/
def add_digit (param digit : ℕ) : ℕ := min (min (param * 10) 65535 + digit) 65535

/-- `Modes::step` inside a private sequence. -/
def Modes.step_private (b : UInt8) : Modes :=
  if 0x30 ≤ b ∧ b ≤ 0x39 then { m with param := add_digit m.param (b.toNat - 0x30) }
  else if b = 0x3b then m.end_param
  else if b = 0x68 ∨ b = 0x6c then
    let m := m.end_param
    let switched := m.params.foldl (fun m mode => m.apply mode (b == 0x68)) { m with params := [] }
    { switched with scan := .ground }
  else { m with scan := .ground }

/-- `Modes::step`. -/
def Modes.step (b : UInt8) : Modes :=
  if b = 0x1b then { m with scan := .esc }
  else match m.scan with
    | .esc => { m with scan := if b = 0x5b then .csi else .ground }
    | .csi =>
      if b = 0x3f then { m with params := [], param := 0, scan := .private }
      else { m with scan := .ground }
    | .private => m.step_private b
    | .ground => { m with scan := .ground }

def Modes.feed (bytes : List UInt8) : Modes := bytes.foldl Modes.step m

/-- `"\x1b[?{mode}h"`, or with an `l`. -/
def switch_text (mode : ℕ) (set : Bool) : Str :=
  ['\x1b', '[', '?'] ++ Nat.toDigits 10 mode ++ [if set then 'h' else 'l']

/-- A mouse mode as the prelude writes it: its state, or the reset of `default`. -/
def mouse_text (default : ℕ) : Option (Option ℕ) → Str
  | some (some mode) => switch_text mode true
  | some none => switch_text default false
  | none => []

def Settings.prelude (s : Settings) : Str :=
  (if s.alt_screen then switch_text 1049 true else [])
    ++ mouse_text 1000 s.mouse_tracking
    ++ mouse_text 1006 s.mouse_encoding
    ++ s.flags.flatMap fun (mode, set) => switch_text mode set

variable (m : Modes)

@[simp] theorem Modes.feed_nil : m.feed [] = m := rfl

@[simp] theorem Modes.feed_cons (b : UInt8) (bytes : List UInt8) :
    m.feed (b :: bytes) = (m.step b).feed bytes := rfl

theorem Modes.feed_append (a b : List UInt8) :
    m.feed (a ++ b) = (m.feed a).feed b :=
  List.foldl_append

/-! ## What a stream switches -/

variable (s : Settings)

/-- The switches in order. -/
def Settings.apply_all (switches : List (ℕ × Bool)) : Settings :=
  switches.foldl (fun s w => s.apply w.1 w.2) s

/-- What one byte switches. -/
def Modes.switches (m : Modes) (b : UInt8) : List (ℕ × Bool) :=
  if m.scan = .private ∧ (b = 0x68 ∨ b = 0x6c) then m.end_param.params.map fun mode => (mode, b == 0x68)
  else []

/-- What a stream switches, all in all. -/
def Modes.heard (m : Modes) : List UInt8 → List (ℕ × Bool)
  | [] => []
  | b :: bytes => m.switches b ++ (m.step b).heard bytes

theorem foldl_apply (modes : List ℕ) (set : Bool) :
    modes.foldl (fun m mode => m.apply mode set) m
      = { m with toSettings := m.toSettings.apply_all (modes.map fun mode => (mode, set)) } := by
  induction modes generalizing m with
  | nil => rfl
  | cons mode modes ih => rw [List.foldl_cons, ih]; rfl

/-- A byte changes the settings by what it switches. -/
theorem step_settings (b : UInt8) :
    (m.step b).toSettings = m.toSettings.apply_all (m.switches b) := by
  unfold Modes.step Modes.switches
  by_cases hesc : b = 0x1b
  · rw [if_pos hesc, if_neg (by rw [hesc]; simp)]
    rfl
  rw [if_neg hesc]
  cases hscan : m.scan with
  | ground | esc =>
    simp only [reduceCtorEq, false_and, if_false]
    rfl
  | csi =>
    simp only [reduceCtorEq, false_and, if_false]
    by_cases hq : b = 0x3f
    · rw [if_pos hq]; rfl
    · rw [if_neg hq]; rfl
  | «private» =>
    simp only [true_and]
    unfold Modes.step_private
    by_cases hdigit : 0x30 ≤ b ∧ b ≤ 0x39
    · rw [if_pos hdigit, if_neg (by rintro (rfl | rfl) <;> revert hdigit <;> decide)]; rfl
    rw [if_neg hdigit]
    by_cases hsemi : b = 0x3b
    · rw [if_pos hsemi, if_neg (by rw [hsemi]; decide)]; rfl
    rw [if_neg hsemi]
    by_cases hend : b = 0x68 ∨ b = 0x6c
    · rw [if_pos hend, if_pos hend]
      simp only [foldl_apply]
      rfl
    · rw [if_neg hend, if_neg hend]; rfl

theorem feed_settings (bytes : List UInt8) :
    (m.feed bytes).toSettings = m.toSettings.apply_all (m.heard bytes) := by
  induction bytes generalizing m with
  | nil => rfl
  | cons b bytes ih =>
    rw [Modes.feed_cons, ih, step_settings]
    exact List.foldl_append.symm

/-! ## A tracker that joins late -/

/-- Two trackers at one place of a sequence. Parameters are read in a private sequence
only, and cleared where one begins. -/
def InStep (m late : Modes) : Prop :=
  late.scan = m.scan ∧ (m.scan = .private → late.params = m.params ∧ late.param = m.param)

/-- A tracker on the ground hears nothing until a sequence begins. -/
theorem switches_ground {m : Modes} (h : m.scan = .ground) (b : UInt8) : m.switches b = [] := by
  unfold Modes.switches
  rw [h]
  simp

theorem InStep.switches {m late : Modes} (h : InStep m late) (b : UInt8) :
    late.switches b = m.switches b := by
  unfold Modes.switches
  rw [h.1]
  by_cases hb : m.scan = .private ∧ (b = 0x68 ∨ b = 0x6c)
  · rw [if_pos hb, if_pos hb]
    unfold Modes.end_param
    rw [(h.2 hb.1).1, (h.2 hb.1).2]
  · rw [if_neg hb, if_neg hb]

theorem InStep.of_esc (m late : Modes) : InStep (m.step 0x1b) (late.step 0x1b) := by
  unfold InStep Modes.step
  rw [if_pos rfl, if_pos rfl]
  exact ⟨rfl, by simp⟩

theorem InStep.step_private {m late : Modes} (h : InStep m late) (hm : m.scan = .private)
    (b : UInt8) : InStep (m.step_private b) (late.step_private b) := by
  obtain ⟨hparams, hparam⟩ := h.2 hm
  unfold InStep Modes.step_private
  by_cases hdigit : 0x30 ≤ b ∧ b ≤ 0x39
  · rw [if_pos hdigit, if_pos hdigit]
    exact ⟨h.1, fun _ => ⟨hparams, by rw [hparam]⟩⟩
  rw [if_neg hdigit, if_neg hdigit]
  by_cases hsemi : b = 0x3b
  · rw [if_pos hsemi, if_pos hsemi]
    unfold Modes.end_param
    exact ⟨h.1, fun _ => ⟨by rw [hparams, hparam], rfl⟩⟩
  rw [if_neg hsemi, if_neg hsemi]
  by_cases hend : b = 0x68 ∨ b = 0x6c
  · rw [if_pos hend, if_pos hend]
    exact ⟨rfl, by simp⟩
  · rw [if_neg hend, if_neg hend]
    exact ⟨rfl, by simp⟩

theorem InStep.step {m late : Modes} (h : InStep m late) (b : UInt8) :
    InStep (m.step b) (late.step b) := by
  by_cases hesc : b = 0x1b
  · rw [hesc]
    exact InStep.of_esc m late
  unfold Modes.step
  rw [if_neg hesc, if_neg hesc, h.1]
  cases hm : m.scan with
  | ground => exact ⟨rfl, by simp⟩
  | esc =>
    refine ⟨rfl, ?_⟩
    by_cases hb : b = 0x5b
    · simp [hb]
    · simp [hb]
  | csi =>
    by_cases hq : b = 0x3f
    · simp [hq, InStep]
    · simp [hq, InStep]
  | «private» => exact h.step_private hm b

theorem InStep.heard {m late : Modes} (h : InStep m late) (bytes : List UInt8) :
    late.heard bytes = m.heard bytes := by
  induction bytes generalizing m late with
  | nil => rfl
  | cons b bytes ih => rw [Modes.heard, Modes.heard, h.switches, ih (h.step b)]

/-- What a tracker on the ground hears of a stream is the last part of what any other
hears of it: it misses the end of a sequence that has begun, and falls in at the next. -/
theorem heard_ground {late : Modes} (h : late.scan = .ground) (bytes : List UInt8) :
    ∃ missed, m.heard bytes = missed ++ late.heard bytes := by
  induction bytes generalizing m late with
  | nil => exact ⟨[], rfl⟩
  | cons b bytes ih =>
    rw [Modes.heard, Modes.heard, switches_ground h, List.nil_append]
    by_cases hesc : b = 0x1b
    · refine ⟨m.switches b, ?_⟩
      rw [hesc, (InStep.of_esc m late).heard]
    · have hstep : (late.step b).scan = .ground := by
        unfold Modes.step
        rw [if_neg hesc, h]
      obtain ⟨missed, hmissed⟩ := ih (m.step b) hstep
      exact ⟨m.switches b ++ missed, by rw [hmissed, List.append_assoc]⟩

/-! ## Registers -/

/-- The registers a setting is made of. -/
inductive Register where
  | screen
  | tracking
  | encoding
  | flag (mode : ℕ)
  deriving DecidableEq

/-- What a register holds: `none` when it was never switched. -/
def Settings.reading : Register → Option (Option ℕ)
  | .screen => some (then_some s.alt_screen 1049)
  | .tracking => s.mouse_tracking
  | .encoding => s.mouse_encoding
  | .flag mode => (s.flags.lookup mode).map fun set => then_some set mode

/-- What a switch writes, and where. -/
def write_of (w : ℕ × Bool) : Option (Register × Option (Option ℕ)) :=
  if is_alt_screen w.1 then some (.screen, some (then_some w.2 1049))
  else if is_mouse_tracking w.1 then some (.tracking, some (then_some w.2 w.1))
  else if is_mouse_encoding w.1 then some (.encoding, some (then_some w.2 w.1))
  else if is_flag w.1 then some (.flag w.1, some (then_some w.2 w.1))
  else none

/-- The value of the first pair with a key. -/
theorem lookup_cons_eq (k m : ℕ) (b : Bool) (flags : List (ℕ × Bool)) :
    ((m, b) :: flags).lookup k = if k = m then some b else flags.lookup k := by
  rw [List.lookup_cons]
  by_cases hk : k = m
  · rw [if_pos hk, beq_iff_eq.mpr hk]
  · rw [if_neg hk, beq_eq_false_iff_ne.mpr hk]

theorem lookup_set_flag (mode : ℕ) (set : Bool) (flags : List (ℕ × Bool)) (k : ℕ) :
    (set_flag mode set flags).lookup k = if k = mode then some set else flags.lookup k := by
  induction flags with
  | nil => exact lookup_cons_eq k mode set []
  | cons f flags ih =>
    obtain ⟨m, b⟩ := f
    unfold set_flag
    by_cases hm : m = mode
    · rw [if_pos hm, lookup_cons_eq, lookup_cons_eq, hm]
      by_cases hk : k = mode
      · rw [if_pos hk, if_pos hk]
      · rw [if_neg hk, if_neg hk, if_neg hk]
    · rw [if_neg hm, lookup_cons_eq, lookup_cons_eq, ih]
      by_cases hk : k = m
      · rw [if_pos hk, if_pos hk, if_neg (by rw [hk]; exact hm)]
      · rw [if_neg hk, if_neg hk]

/-- The flags a setting names, in order. -/
def Settings.touched : List ℕ := s.flags.map Prod.fst

theorem map_fst_set_flag (mode : ℕ) (set : Bool) (flags : List (ℕ × Bool)) :
    (set_flag mode set flags).map Prod.fst
      = if mode ∈ flags.map Prod.fst then flags.map Prod.fst
        else flags.map Prod.fst ++ [mode] := by
  induction flags with
  | nil => simp [set_flag]
  | cons f flags ih =>
    obtain ⟨m, b⟩ := f
    unfold set_flag
    by_cases hm : m = mode
    · simp [hm]
    · rw [if_neg hm, List.map_cons, ih]
      by_cases hin : mode ∈ flags.map Prod.fst
      · rw [if_pos hin, if_pos (by simp [hin])]
        rfl
      · rw [if_neg hin, if_neg (by simpa [Ne.symm hm] using hin)]
        rfl

variable (s : Settings)

/-- A switch is a write to its register. -/
theorem reading_apply (w : ℕ × Bool) :
    (s.apply w.1 w.2).reading = write_all s.reading (write_of w).toList := by
  obtain ⟨mode, set⟩ := w
  unfold Settings.apply write_of
  simp only
  by_cases hs : is_alt_screen mode = true
  · rw [if_pos hs, if_pos hs]
    funext r
    cases r <;> rfl
  rw [if_neg hs, if_neg hs]
  by_cases ht : is_mouse_tracking mode = true
  · rw [if_pos ht, if_pos ht]
    funext r
    cases r <;> rfl
  rw [if_neg ht, if_neg ht]
  by_cases he : is_mouse_encoding mode = true
  · rw [if_pos he, if_pos he]
    funext r
    cases r <;> rfl
  rw [if_neg he, if_neg he]
  by_cases hf : is_flag mode = true
  · rw [if_pos hf, if_pos hf, toList_some, write_all_cons, write_all_nil]
    funext r
    by_cases hr : r = .flag mode
    · rw [hr, Function.update_self, Settings.reading, lookup_set_flag, if_pos rfl]
      rfl
    · rw [Function.update_of_ne hr]
      cases r with
      | flag k =>
        have hk : ¬ k = mode := fun h => hr (by rw [h])
        rw [Settings.reading, Settings.reading, lookup_set_flag, if_neg hk]
      | _ => rfl
  · rw [if_neg hf, if_neg hf]
    rfl

variable (ws : List (ℕ × Bool))

theorem reading_apply_all :
    (s.apply_all ws).reading = write_all s.reading (ws.filterMap write_of) := by
  induction ws generalizing s with
  | nil => rfl
  | cons w ws ih =>
    have hcons : (w :: ws).filterMap write_of = (write_of w).toList ++ ws.filterMap write_of := by
      rw [List.filterMap_cons]
      rcases write_of w with _ | r <;> rfl
    rw [hcons, write_all_append, ← reading_apply]
    exact ih _

/-- Whether a mode is kept as a flag. -/
def flagged (mode : ℕ) : Bool :=
  !is_alt_screen mode && !is_mouse_tracking mode && !is_mouse_encoding mode && is_flag mode

theorem touched_apply (mode : ℕ) (set : Bool) :
    (s.apply mode set).touched
      = if flagged mode = true ∧ mode ∉ s.touched then s.touched ++ [mode] else s.touched := by
  unfold Settings.apply flagged
  by_cases hs : is_alt_screen mode = true
  · simp [hs, Settings.touched]
  by_cases ht : is_mouse_tracking mode = true
  · simp [hs, ht, Settings.touched]
  by_cases he : is_mouse_encoding mode = true
  · simp [hs, ht, he, Settings.touched]
  by_cases hf : is_flag mode = true
  · rw [if_neg hs, if_neg ht, if_neg he, if_pos hf]
    change (set_flag mode set s.flags).map Prod.fst = _
    rw [map_fst_set_flag]
    change (if mode ∈ s.touched then s.touched else s.touched ++ [mode]) = _
    by_cases hin : mode ∈ s.touched
    · rw [if_pos hin, if_neg (by simp [hin])]
    · rw [if_neg hin, if_pos (by simp [hin, hs, ht, he, hf])]
  · simp [hs, ht, he, hf, Settings.touched]

theorem touched_subset {k : ℕ} (h : k ∈ s.touched) :
    k ∈ (s.apply_all ws).touched := by
  induction ws generalizing s with
  | nil => exact h
  | cons w ws ih =>
    apply ih
    rw [touched_apply]
    split_ifs
    · exact List.mem_append_left _ h
    · exact h

/-- Every flag that was switched is named. -/
theorem mem_touched {ws : List (ℕ × Bool)} {w : ℕ × Bool} (h : w ∈ ws)
    (hf : flagged w.1 = true) : w.1 ∈ (s.apply_all ws).touched := by
  induction ws generalizing s with
  | nil => simp at h
  | cons v ws ih =>
    rcases List.mem_cons.mp h with rfl | h
    · change w.1 ∈ ((s.apply w.1 w.2).apply_all ws).touched
      apply touched_subset
      rw [touched_apply]
      by_cases hin : w.1 ∈ s.touched
      · rw [if_neg (by simp [hin])]
        exact hin
      · rw [if_pos ⟨hf, hin⟩]
        exact List.mem_append_right _ (List.mem_singleton_self _)
    · exact ih _ h

/-- Switching only flags that are named adds none. -/
theorem touched_apply_all_of_mem
    (h : ∀ w ∈ ws, flagged w.1 = true → w.1 ∈ s.touched) :
    (s.apply_all ws).touched = s.touched := by
  induction ws generalizing s with
  | nil => rfl
  | cons w ws ih =>
    rw [List.forall_mem_cons] at h
    have hone : (s.apply w.1 w.2).touched = s.touched := by
      rw [touched_apply, if_neg fun hnot => hnot.2 (h.1 hnot.1)]
    have hrest := ih (s.apply w.1 w.2) (by rw [hone]; exact h.2)
    rw [← hone]
    exact hrest

/-- Flags with the same names, each once, and the same values are the same. -/
theorem flags_ext {a b : List (ℕ × Bool)} (hnames : a.map Prod.fst = b.map Prod.fst)
    (hnodup : (a.map Prod.fst).Nodup) (h : ∀ k, a.lookup k = b.lookup k) : a = b := by
  induction a generalizing b with
  | nil => exact (List.map_eq_nil_iff.mp hnames.symm).symm
  | cons f a ih =>
    cases b with
    | nil => simp at hnames
    | cons g b =>
      obtain ⟨m, x⟩ := f
      obtain ⟨m', y⟩ := g
      rw [List.map_cons, List.map_cons, List.cons.injEq] at hnames
      rw [List.map_cons, List.nodup_cons] at hnodup
      obtain ⟨hm, hrest⟩ : m = m' ∧ a.map Prod.fst = b.map Prod.fst := hnames
      have hxy : x = y := by
        have hm0 := h m
        rw [lookup_cons_eq, lookup_cons_eq, if_pos rfl, if_pos hm] at hm0
        exact some.inj hm0
      rw [hm, hxy, ih hrest hnodup.2 ?_]
      intro k
      have hk0 := h k
      rw [lookup_cons_eq, lookup_cons_eq] at hk0
      by_cases hk : k = m
      -- a name already met is in neither rest
      · have hnot : ∀ {l : List (ℕ × Bool)}, k ∉ l.map Prod.fst → l.lookup k = none := by
          intro l hl
          rw [List.lookup_eq_none_iff]
          intro p hp
          exact bne_iff_ne.mpr fun hkp => hl (List.mem_map.mpr ⟨p, hp, hkp.symm⟩)
        rw [hnot (by rw [hk]; exact hnodup.1), hnot (by rw [hk, ← hrest]; exact hnodup.1)]
      · rw [if_neg hk, if_neg (by rw [← hm]; exact hk)] at hk0
        exact hk0

theorem Settings.ext_reading {s t : Settings} (hread : s.reading = t.reading)
    (htouched : s.touched = t.touched) (hnodup : s.touched.Nodup) : s = t := by
  have hscreen := congrFun hread .screen
  have htracking := congrFun hread .tracking
  have hencoding := congrFun hread .encoding
  have hflags : s.flags = t.flags := by
    refine flags_ext htouched hnodup fun k => ?_
    have hk := congrFun hread (.flag k)
    have hinj : Function.Injective (Option.map fun set => then_some set k) := by
      refine map_injective fun a b hab => ?_
      cases a <;> cases b <;> simp_all [then_some]
    exact hinj hk
  obtain ⟨alt, tracking, encoding, flags⟩ := s
  obtain ⟨alt', tracking', encoding', flags'⟩ := t
  have halt : alt = alt' := by
    cases alt <;> cases alt' <;> simp_all [Settings.reading, then_some]
  rw [halt, show tracking = tracking' from htracking, show encoding = encoding' from hencoding,
    show flags = flags' from hflags]

/-! ## Settings a stream can leave -/

/-- Each mouse mode and flag in its own place, and no flag twice. -/
structure Tidy (s : Settings) : Prop where
  tracking : ∀ mode, s.mouse_tracking = some (some mode) → is_mouse_tracking mode = true
  encoding : ∀ mode, s.mouse_encoding = some (some mode) → is_mouse_encoding mode = true
  flags : ∀ mode ∈ s.touched, is_flag mode = true
  nodup : s.touched.Nodup

theorem tidy_default : Tidy {} :=
  ⟨by simp, by simp, by simp [Settings.touched], List.nodup_nil⟩

theorem then_some_eq {set : Bool} {mode mode' : ℕ} (h : then_some set mode = some mode') :
    mode = mode' := by
  unfold then_some at h
  split_ifs at h
  exact some.inj h

theorem Tidy.apply {s : Settings} (h : Tidy s) (mode : ℕ) (set : Bool) :
    Tidy (s.apply mode set) := by
  have htouched := touched_apply s mode set
  have hflags : ∀ m ∈ (s.apply mode set).touched, is_flag m = true := by
    rw [htouched]
    -- a mode is noted only when it is a flag and not noted before
    split_ifs with hnew
    · intro m hm
      rcases List.mem_append.mp hm with hm | hm
      · exact h.flags m hm
      · rw [List.mem_singleton.mp hm]
        simp only [flagged, Bool.and_eq_true] at hnew
        exact hnew.1.2
    · exact h.flags
  have hnodup : (s.apply mode set).touched.Nodup := by
    rw [htouched]
    split_ifs with hnew
    · exact List.nodup_append.mpr ⟨h.nodup, List.nodup_singleton _, by
        intro a ha b hb hab
        rw [List.mem_singleton] at hb
        exact hnew.2 (by rw [← hb, ← hab]; exact ha)⟩
    · exact h.nodup
  refine ⟨?_, ?_, hflags, hnodup⟩
  · intro m hm
    unfold Settings.apply at hm
    split_ifs at hm with hs ht
    · exact h.tracking m hm
    · rw [← then_some_eq (some.inj hm)]
      exact ht
    · exact h.tracking m hm
    · exact h.tracking m hm
    · exact h.tracking m hm
  · intro m hm
    unfold Settings.apply at hm
    split_ifs at hm with hs ht he
    · exact h.encoding m hm
    · exact h.encoding m hm
    · rw [← then_some_eq (some.inj hm)]
      exact he
    · exact h.encoding m hm
    · exact h.encoding m hm

theorem Tidy.apply_all {s : Settings} (h : Tidy s) (ws : List (ℕ × Bool)) :
    Tidy (s.apply_all ws) := by
  induction ws generalizing s with
  | nil => exact h
  | cons w ws ih => exact ih (h.apply w.1 w.2)

/-- Hearing the last part of what was heard once more changes nothing. -/
theorem apply_all_again {s : Settings} (h : Tidy s) (ws us : List (ℕ × Bool)) :
    (s.apply_all (ws ++ us)).apply_all us = s.apply_all (ws ++ us) := by
  have htouched : ((s.apply_all (ws ++ us)).apply_all us).touched
      = (s.apply_all (ws ++ us)).touched :=
    touched_apply_all_of_mem _ us fun w hw hf => mem_touched s (List.mem_append_right _ hw) hf
  refine Settings.ext_reading ?_ htouched (by rw [htouched]; exact (h.apply_all _).nodup)
  rw [reading_apply_all, reading_apply_all, List.filterMap_append, write_all_again]

/-! ## Reading a prelude -/

/-- A mouse mode as one switch, or none. -/
def mouse_switch (default : ℕ) : Option (Option ℕ) → List (ℕ × Bool)
  | some (some mode) => [(mode, true)]
  | some none => [(default, false)]
  | none => []

/-- The switches a prelude writes down. -/
def Settings.switched (s : Settings) : List (ℕ × Bool) :=
  (if s.alt_screen then [(1049, true)] else []) ++ mouse_switch 1000 s.mouse_tracking
    ++ mouse_switch 1006 s.mouse_encoding ++ s.flags

theorem mouse_text_eq (default : ℕ) (m : Option (Option ℕ)) :
    mouse_text default m = (mouse_switch default m).flatMap fun w => switch_text w.1 w.2 := by
  rcases m with _ | _ | mode
  · rfl
  · exact (List.append_nil _).symm
  · exact (List.append_nil _).symm

theorem prelude_eq :
    s.prelude = s.switched.flatMap fun w => switch_text w.1 w.2 := by
  unfold Settings.prelude Settings.switched
  rw [mouse_text_eq, mouse_text_eq, List.flatMap_append, List.flatMap_append,
    List.flatMap_append]
  by_cases h : s.alt_screen
  · rw [if_pos h, if_pos h]
    simp
  · rw [if_neg h, if_neg h]
    rfl

/-- The modes a prelude can name. -/
def written_modes : List ℕ := [1049, 9, 1000, 1002, 1003, 1006, 1016, 1, 25, 1004, 2004]

/-- The number that digits in a private sequence add up to. -/
def read_param (bytes : List UInt8) (param : ℕ) : ℕ :=
  bytes.foldl (fun param b => add_digit param (b.toNat - 0x30)) param

theorem feed_digits (m : Modes) {bytes : List UInt8} (hm : m.scan = .private)
    (h : ∀ b ∈ bytes, 0x30 ≤ b ∧ b ≤ 0x39) :
    m.feed bytes = { m with param := read_param bytes m.param } := by
  induction bytes generalizing m with
  | nil => rfl
  | cons b bytes ih =>
    rw [List.forall_mem_cons] at h
    have hstep : m.step b = { m with param := add_digit m.param (b.toNat - 0x30) } := by
      have hesc : ¬ b = 0x1b := by
        rintro rfl
        exact absurd h.1 (by decide)
      unfold Modes.step Modes.step_private
      rw [if_neg hesc, hm, if_pos h.1]
    rw [Modes.feed_cons, hstep,
      ih { m with param := add_digit m.param (b.toNat - 0x30) } hm h.2]
    rfl

/-- The digits of every mode a prelude names are read back as that mode. -/
theorem read_written : ∀ mode ∈ written_modes,
    (∀ b ∈ as_bytes (Nat.toDigits 10 mode), 0x30 ≤ b ∧ b ≤ 0x39)
      ∧ read_param (as_bytes (Nat.toDigits 10 mode)) 0 = mode := by
  decide +kernel

variable {mode : ℕ}

/-- A tracker that reads one switch makes it, and is on the ground behind it. -/
theorem feed_switch_text (m : Modes) (h : mode ∈ written_modes) (set : Bool) :
    m.feed (as_bytes (switch_text mode set))
      = { toSettings := m.toSettings.apply mode set } := by
  obtain ⟨hdigits, hread⟩ := read_written mode h
  have hopen : m.feed (as_bytes ['\x1b', '[', '?'])
      = { m with params := [], param := 0, scan := .private } := rfl
  have hclose (m : Modes) (hm : m.scan = .private) (hparams : m.params = []) :
      m.feed (as_bytes [if set then 'h' else 'l'])
        = { toSettings := m.toSettings.apply m.param set } := by
    have hbyte : as_bytes [if set then 'h' else 'l'] = [if set then 0x68 else 0x6c] := by
      cases set <;> rfl
    rw [hbyte, Modes.feed_cons, Modes.feed_nil]
    unfold Modes.step
    rw [if_neg (by cases set <;> decide), hm]
    simp only
    unfold Modes.step_private Modes.end_param
    rw [if_neg (by cases set <;> decide), if_neg (by cases set <;> decide),
      if_pos (by cases set <;> decide), hparams]
    cases set <;> rfl
  rw [switch_text, as_bytes_append, as_bytes_append, Modes.feed_append, Modes.feed_append, hopen,
    feed_digits _ rfl hdigits, hread]
  exact hclose _ rfl rfl

theorem feed_switch_texts {ws : List (ℕ × Bool)}
    (h : ∀ w ∈ ws, w.1 ∈ written_modes) :
    Modes.feed { toSettings := s } (as_bytes (ws.flatMap fun w => switch_text w.1 w.2))
      = { toSettings := s.apply_all ws } := by
  induction ws generalizing s with
  | nil => rfl
  | cons w ws ih =>
    rw [List.forall_mem_cons] at h
    rw [List.flatMap_cons, as_bytes_append, Modes.feed_append, feed_switch_text _ h.1, ih _ h.2]
    rfl

theorem is_flag_apply (h : is_flag mode = true) (set : Bool) :
    s.apply mode set = { s with flags := set_flag mode set s.flags } := by
  simp only [is_flag, Bool.or_eq_true, beq_iff_eq] at h
  rcases h with ((rfl | rfl) | rfl) | rfl <;> rfl

theorem set_flag_new {flags : List (ℕ × Bool)} (h : mode ∉ flags.map Prod.fst)
    (set : Bool) : set_flag mode set flags = flags ++ [(mode, set)] := by
  induction flags with
  | nil => rfl
  | cons f flags ih =>
    rw [List.map_cons, List.mem_cons, not_or] at h
    unfold set_flag
    rw [if_neg (Ne.symm h.1), ih h.2]
    rfl

/-- Flags switched one after the other stand in that order. -/
theorem apply_all_flags {flags : List (ℕ × Bool)}
    (hflag : ∀ f ∈ flags, is_flag f.1 = true)
    (hnodup : ((s.flags ++ flags).map Prod.fst).Nodup) :
    s.apply_all flags = { s with flags := s.flags ++ flags } := by
  induction flags generalizing s with
  | nil => rw [List.append_nil]; rfl
  | cons f flags ih =>
    rw [List.forall_mem_cons] at hflag
    have hnew : f.1 ∉ s.flags.map Prod.fst := by
      rw [List.map_append, List.map_cons, List.nodup_append] at hnodup
      intro hin
      exact hnodup.2.2 _ hin _ (List.mem_cons_self ..) rfl
    have hone : s.apply f.1 f.2 = { s with flags := s.flags ++ [f] } := by
      rw [is_flag_apply s hflag.1, set_flag_new hnew]
    change (s.apply f.1 f.2).apply_all flags = _
    rw [hone, ih _ hflag.2 (by simpa using hnodup)]
    simp

theorem apply_tracking (h : is_mouse_tracking mode = true) (set : Bool) :
    s.apply mode set = { s with mouse_tracking := some (then_some set mode) } := by
  simp only [is_mouse_tracking, Bool.or_eq_true, beq_iff_eq] at h
  rcases h with ((rfl | rfl) | rfl) | rfl <;> rfl

theorem apply_encoding (h : is_mouse_encoding mode = true) (set : Bool) :
    s.apply mode set = { s with mouse_encoding := some (then_some set mode) } := by
  simp only [is_mouse_encoding, Bool.or_eq_true, beq_iff_eq] at h
  rcases h with rfl | rfl <;> rfl

/-- The switches of a prelude make the settings it is the prelude of. -/
theorem apply_all_switched {s : Settings} (h : Tidy s) : Settings.apply_all {} s.switched = s := by
  obtain ⟨alt, tracking, encoding, flags⟩ := s
  have happend (t : Settings) (ws us : List (ℕ × Bool)) :
      t.apply_all (ws ++ us) = (t.apply_all ws).apply_all us := List.foldl_append
  have halt : Settings.apply_all {} (if alt = true then [(1049, true)] else [])
      = { alt_screen := alt } := by
    cases alt <;> rfl
  have htracking : Settings.apply_all { alt_screen := alt } (mouse_switch 1000 tracking)
      = { alt_screen := alt, mouse_tracking := tracking } := by
    rcases tracking with _ | _ | mode
    · rfl
    · rfl
    · exact apply_tracking _ (h.tracking mode rfl) true
  have hencoding :
      Settings.apply_all { alt_screen := alt, mouse_tracking := tracking }
          (mouse_switch 1006 encoding)
        = { alt_screen := alt, mouse_tracking := tracking, mouse_encoding := encoding } := by
    rcases encoding with _ | _ | mode
    · rfl
    · rfl
    · exact apply_encoding _ (h.encoding mode rfl) true
  unfold Settings.switched
  rw [happend, happend, happend, halt, htracking, hencoding]
  exact apply_all_flags { alt_screen := alt, mouse_tracking := tracking, mouse_encoding := encoding }
    (fun f hf => h.flags _ (List.mem_map_of_mem hf)) h.nodup

theorem switched_written {s : Settings} (h : Tidy s) : ∀ w ∈ s.switched, w.1 ∈ written_modes := by
  have htracking : ∀ mode, is_mouse_tracking mode = true → mode ∈ written_modes := by
    intro mode hm
    simp only [is_mouse_tracking, Bool.or_eq_true, beq_iff_eq] at hm
    rcases hm with ((rfl | rfl) | rfl) | rfl <;> decide
  have hencoding : ∀ mode, is_mouse_encoding mode = true → mode ∈ written_modes := by
    intro mode hm
    simp only [is_mouse_encoding, Bool.or_eq_true, beq_iff_eq] at hm
    rcases hm with rfl | rfl <;> decide
  have hflag : ∀ mode, is_flag mode = true → mode ∈ written_modes := by
    intro mode hm
    simp only [is_flag, Bool.or_eq_true, beq_iff_eq] at hm
    rcases hm with ((rfl | rfl) | rfl) | rfl <;> decide
  intro w hw
  unfold Settings.switched at hw
  rcases List.mem_append.mp hw with hw | hw
  · rcases List.mem_append.mp hw with hw | hw
    · rcases List.mem_append.mp hw with hw | hw
      · split_ifs at hw
        · rw [List.mem_singleton.mp hw]
          decide
        · simp at hw
      · rcases hm : s.mouse_tracking with _ | _ | mode
        · simp [hm, mouse_switch] at hw
        · rw [hm] at hw
          rw [List.mem_singleton.mp hw]
          decide
        · rw [hm] at hw
          rw [List.mem_singleton.mp hw]
          exact htracking mode (h.tracking mode hm)
    · rcases hm : s.mouse_encoding with _ | _ | mode
      · simp [hm, mouse_switch] at hw
      · rw [hm] at hw
        rw [List.mem_singleton.mp hw]
        decide
      · rw [hm] at hw
        rw [List.mem_singleton.mp hw]
        exact hencoding mode (h.encoding mode hm)
  · exact hflag _ (h.flags _ (List.mem_map_of_mem hw))

/-- A fresh tracker reads a prelude back as the settings it was written for. -/
theorem feed_prelude {s : Settings} (h : Tidy s) :
    Modes.feed {} (as_bytes s.prelude) = { toSettings := s } := by
  rw [prelude_eq, feed_switch_texts {} (switched_written h), apply_all_switched h]

/-- A fresh tracker that reads a prelude and then the last part of the stream, from
wherever it starts, has the settings of the tracker that read the whole. -/
theorem feed_prelude_append (m : Modes) (hm : Tidy m.toSettings) (bytes : List UInt8) :
    (Modes.feed {} (as_bytes (m.feed bytes).prelude ++ bytes)).toSettings
      = (m.feed bytes).toSettings := by
  have htidy : Tidy (m.feed bytes).toSettings := by
    rw [feed_settings]
    exact hm.apply_all _
  obtain ⟨missed, hmissed⟩ :=
    @heard_ground m { toSettings := (m.feed bytes).toSettings } rfl bytes
  have hagain := apply_all_again hm missed (Modes.heard { toSettings := (m.feed bytes).toSettings } bytes)
  rw [← hmissed, ← feed_settings] at hagain
  rw [Modes.feed_append, feed_prelude htidy, feed_settings]
  exact hagain

end Lpm.Terminal
