/-
The output rings of terminals: `ptyring.rs`.

A ring is a bounded window of a terminal's byte stream, and offsets into that stream
are what viewers hold while they are away. What a viewer is owed when it comes back is
stated over histories: take any operation that hands out an offset, and any operations
after it that do not drop the terminal. Then asking for what came since that offset
gives nothing, or the text of exactly the chunks pushed in between; and gives nothing
once the offsets were retired.

Offsets are unbounded here. The `u64` of the source has room for any stream a machine
can emit.
-/
import Lpm.Terminal.Modes

set_option autoImplicit false

open RustText Utf8

namespace Lpm.Terminal

open Function (update update_of_ne update_self)
open List Option

/-! ## One ring -/

def RING_CAP : ℕ := 512 * 1024

def SEED_CAP : ℕ := 96 * 1024

/-- `base` is the stream offset of the first byte held, and `truncated` whether bytes
were dropped from in front of it. -/
structure Ring where
  buf : List UInt8 := []
  base : ℕ := 0
  truncated : Bool := false
  modes : Modes := {}

variable (r : Ring)

def Ring.total : ℕ := r.base + r.buf.length

/-- `Ring::push`, with the offset it returns. -/
def Ring.push (text : Str) : Ring × ℕ :=
  let r := { r with modes := r.modes.feed (as_bytes text), buf := r.buf ++ as_bytes text }
  let «over» := r.buf.length - RING_CAP
  let r :=
    if «over» > 0 then { r with buf := r.buf.drop «over», base := r.base + «over», truncated := true }
    else r
  (r, r.total)

variable (floor : ℕ)

/-- Where the bytes a seed replays begin in what is held, and whether that is part-way
through a line. -/
def Ring.cut : ℕ × Bool :=
  let start := min (floor - r.base) r.buf.length
  let skip := max (r.buf.length - SEED_CAP) start
  (skip, decide (skip > start) || (start == 0 && r.truncated))

/-- The bytes a seed is made from. -/
def Ring.kept_tail : List UInt8 := r.buf.drop (r.cut floor).1

/-- A text without its first line, when that is a partial one. -/
def whole_lines (s : Str) (mid_line : Bool) : Str :=
  match mid_line, split_once '\n' s with
  | true, some (_, rest) => rest
  | _, _ => s

/-- What stands behind the prelude of a seed. -/
def Ring.tail : Str :=
  whole_lines (from_utf8_lossy (r.kept_tail floor)) (r.cut floor).2

/-- `Ring::seed`. -/
def Ring.seed : Str × ℕ :=
  (r.modes.prelude ++ r.tail floor, r.total)

/-- `Ring::since`. -/
def Ring.since («from» : ℕ) : Option (Str × ℕ) :=
  if «from» < r.base ∨ «from» > r.total then none
  else some (from_utf8_lossy (r.buf.drop («from» - r.base)), r.total)

def Ring.invalidate : Ring :=
  { r with base := r.total + 1, buf := [], truncated := false }

/-! ## The rings of every terminal -/

/-- `PtyRings`: a ring for every terminal that has one. -/
abbrev PtyRings := String → Option Ring

namespace PtyRings

variable (rings : PtyRings) (id : String)

def push (text : Str) : PtyRings × ℕ :=
  let pushed := ((rings id).getD {}).push text
  (update rings id (some pushed.1), pushed.2)

def seed (floor : ℕ) : Str × ℕ :=
  match rings id with
  | some r => r.seed floor
  | none => ([], 0)

def total : ℕ := (rings id).elim 0 Ring.total

def since («from» : ℕ) : Option (Str × ℕ) :=
  (rings id).bind fun r => r.since «from»

def drop_ring : PtyRings := update rings id none

def invalidate_all : PtyRings := fun id => (rings id).map Ring.invalidate

end PtyRings

/-- What is done to the rings, one critical section at a time. -/
inductive RingOp where
  | push (id : String) (text : Str)
  | seed (id : String) (floor : ℕ)
  | total (id : String)
  | since (id : String) («from» : ℕ)
  | drop_ring (id : String)
  | invalidate_all
  deriving DecidableEq

variable (rings : PtyRings)

/-- The rings after an operation. -/
def RingOp.apply : RingOp → PtyRings
  | .push id text => (rings.push id text).1
  | .drop_ring id => rings.drop_ring id
  | .invalidate_all => rings.invalidate_all
  | _ => rings

/-- The offset an operation hands out, and for which terminal. -/
def RingOp.handed_out : RingOp → Option (String × ℕ)
  | .push id text => some (id, (rings.push id text).2)
  | .seed id floor => some (id, (rings.seed id floor).2)
  | .total id => some (id, rings.total id)
  | .since id «from» => (rings.since id «from»).map fun (_, off) => (id, off)
  | _ => none

def PtyRings.run (ops : List RingOp) : PtyRings := ops.foldl RingOp.apply rings

/-- The text an operation emits at a terminal. -/
def RingOp.text (id : String) : RingOp → Str
  | .push id' text => if id' = id then text else []
  | _ => []

/-- The text a terminal emits over a history. -/
def emitted (id : String) (ops : List RingOp) : Str := ops.flatMap (RingOp.text id)

/-! ## One ring: what is held since an offset -/

variable (r : Ring) (text : Str)

theorem Ring.push_base :
    (r.push text).1.base = r.base + ((r.buf ++ as_bytes text).length - RING_CAP) := by
  unfold Ring.push
  simp only
  by_cases hover : (r.buf ++ as_bytes text).length - RING_CAP > 0
  · rw [if_pos hover]
  · rw [if_neg hover]
    change r.base = _
    omega

theorem Ring.push_buf :
    (r.push text).1.buf
      = (r.buf ++ as_bytes text).drop ((r.buf ++ as_bytes text).length - RING_CAP) := by
  unfold Ring.push
  simp only
  by_cases hover : (r.buf ++ as_bytes text).length - RING_CAP > 0
  · rw [if_pos hover]
  · rw [if_neg hover, Nat.eq_zero_of_not_pos hover]
    rfl

theorem Ring.push_snd : (r.push text).2 = (r.push text).1.total := rfl

theorem Ring.push_total :
    (r.push text).1.total = r.total + (as_bytes text).length := by
  unfold Ring.total
  rw [Ring.push_base, Ring.push_buf, length_drop, length_append]
  omega

/-- An offset that was handed out, and the text emitted since: either the offset is
retired, or what is held from it on is that text. -/
structure SinceThen (r : Ring) (o : ℕ) (text : Str) : Prop where
  past : o ≤ r.total
  held : r.base ≤ o → r.buf.drop (o - r.base) = as_bytes text

/-- The current total is an offset nothing was emitted since. -/
theorem SinceThen.now : SinceThen r r.total [] where
  past := le_rfl
  held _ := by
    rw [Ring.total, Nat.add_sub_cancel_left, drop_length]
    rfl

variable {r : Ring} {text : Str} {o : ℕ}

theorem SinceThen.push (h : SinceThen r o text) (chunk : Str) :
    SinceThen (r.push chunk).1 o (text ++ chunk) where
  past := by
    have hpast := h.past
    rw [Ring.push_total]
    omega
  held := by
    have hpast := h.past
    have hlen : r.total = r.base + r.buf.length := rfl
    rw [Ring.push_base, Ring.push_buf]
    intro hbase
    -- the bytes that fell off are in front of the offset
    have hfront : (r.buf ++ as_bytes chunk).length - RING_CAP
        + (o - (r.base + ((r.buf ++ as_bytes chunk).length - RING_CAP))) = o - r.base := by
      omega
    rw [drop_drop, hfront, drop_append_of_le_length (by omega), h.held (by omega),
      as_bytes_append]

/-- No offset handed out before is at or past the base of an invalidated ring. -/
theorem SinceThen.invalidate (h : SinceThen r o text)
    (text' : Str) : SinceThen r.invalidate o text' ∧ o < r.invalidate.base := by
  have hpast := h.past
  have hbase : o < r.invalidate.base := Nat.lt_succ_of_le hpast
  refine ⟨⟨?_, fun h' => absurd h' (by omega)⟩, hbase⟩
  exact hbase.le.trans (Nat.le_add_right _ _)

/-- Retired offsets stay retired. -/
theorem Ring.base_le_push (r : Ring) (chunk : Str) : r.base ≤ (r.push chunk).1.base := by
  rw [Ring.push_base]
  exact Nat.le_add_right _ _

theorem Ring.base_le_invalidate (r : Ring) : r.base ≤ r.invalidate.base :=
  (Nat.le_add_right _ _).trans (Nat.le_succ _)

theorem Ring.since_retired (h : o < r.base) : r.since o = none := by
  rw [Ring.since, if_pos (.inl h)]

/-- What is asked for since an offset is nothing, or the text emitted since. -/
theorem SinceThen.since (h : SinceThen r o text) :
    r.since o = none ∨ r.since o = some (text, r.total) := by
  by_cases hbase : o < r.base
  · exact .inl (Ring.since_retired hbase)
  · right
    have hpast := h.past
    rw [Ring.since, if_neg (by omega), h.held (by omega), lossy_as_bytes]

/-! ## A terminal's ring over a history -/

/-- What an operation does to the ring of a terminal it does not drop. -/
def RingOp.on (id : String) (r : Ring) : RingOp → Ring
  | .push id' text => if id' = id then (r.push text).1 else r
  | .invalidate_all => r.invalidate
  | _ => r

theorem RingOp.apply_live {rings : PtyRings} {id : String} (h : rings id = some r)
    {op : RingOp} (hop : op ≠ .drop_ring id) : op.apply rings id = some (op.on id r) := by
  cases op with
  | push id' text =>
    change update rings id' (some (((rings id').getD {}).push text).1) id
      = some (if id' = id then (r.push text).1 else r)
    by_cases hid : id' = id
    · rw [if_pos hid, hid, update_self, h, getD_some]
    · rw [if_neg hid, update_of_ne (Ne.symm hid), h]
  | drop_ring id' =>
    change update rings id' none id = some r
    rw [update_of_ne fun hid => hop (by rw [hid]), h]
  | invalidate_all =>
    change (rings id).map Ring.invalidate = some r.invalidate
    rw [h]
    rfl
  | seed id' floor => exact h
  | total id' => exact h
  | since id' «from» => exact h

/-- Every offset handed out is the total of its terminal's ring at that moment. -/
theorem RingOp.handed_out_total {rings : PtyRings} {op : RingOp} {id : String}
    (hand : op.handed_out rings = some (id, o)) (h : op.apply rings id = some r) : o = r.total := by
  cases op with
  | push id' text =>
    obtain ⟨hid, ho⟩ := Prod.mk.inj (some.inj hand)
    change update rings id' (some (((rings id').getD {}).push text).1) id = some r at h
    rw [hid, update_self] at h
    rw [← ho, ← some.inj h, PtyRings.push, hid, Ring.push_snd]
  | seed id' floor =>
    obtain ⟨hid, ho⟩ := Prod.mk.inj (some.inj hand)
    rw [← ho, hid, PtyRings.seed, show rings id = some r from h]
    rfl
  | total id' =>
    obtain ⟨hid, ho⟩ := Prod.mk.inj (some.inj hand)
    rw [← ho, hid, PtyRings.total, show rings id = some r from h]
    rfl
  | since id' «from» =>
    obtain ⟨⟨text, off⟩, hsince, heq⟩ := map_eq_some_iff.mp hand
    obtain ⟨hid, ho⟩ := Prod.mk.inj heq
    rw [PtyRings.since, hid, show rings id = some r from h, bind_some, Ring.since] at hsince
    split_ifs at hsince
    rw [← ho]
    exact (Prod.mk.inj (some.inj hsince)).2.symm
  | drop_ring id' | invalidate_all => exact absurd hand (by simp [RingOp.handed_out])

/-- One operation: what was emitted since an offset grows by its text. -/
theorem SinceThen.on (h : SinceThen r o text) (id : String)
    (op : RingOp) : SinceThen (op.on id r) o (text ++ op.text id) := by
  have hsame : SinceThen r o (text ++ []) := by rw [append_nil]; exact h
  cases op with
  | push id' chunk =>
    by_cases hid : id' = id
    · rw [RingOp.on, RingOp.text, if_pos hid, if_pos hid]
      exact h.push chunk
    · rw [RingOp.on, RingOp.text, if_neg hid, if_neg hid]
      exact hsame
  | invalidate_all => exact (h.invalidate _).1
  | seed id' floor => exact hsame
  | total id' => exact hsame
  | since id' «from» => exact hsame
  | drop_ring id' => exact hsame

theorem RingOp.base_le_on (id : String) (r : Ring) (op : RingOp) : r.base ≤ (op.on id r).base := by
  cases op with
  | push id' chunk =>
    rw [RingOp.on]
    split_ifs
    · exact r.base_le_push chunk
    · exact le_rfl
  | invalidate_all => exact r.base_le_invalidate
  | seed id' floor => exact le_rfl
  | total id' => exact le_rfl
  | since id' «from» => exact le_rfl
  | drop_ring id' => exact le_rfl

/-- A whole history that does not drop the terminal. -/
theorem SinceThen.run {rings : PtyRings} {id : String}
    (hr : rings id = some r) (h : SinceThen r o text) {ops : List RingOp}
    (hops : RingOp.drop_ring id ∉ ops) :
    ∃ r', rings.run ops id = some r' ∧ SinceThen r' o (text ++ emitted id ops)
      ∧ r.base ≤ r'.base ∧ (RingOp.invalidate_all ∈ ops → o < r'.base) := by
  induction ops generalizing rings r text with
  | nil =>
    refine ⟨r, hr, ?_, le_rfl, by simp⟩
    rw [emitted, flatMap_nil, append_nil]
    exact h
  | cons op ops ih =>
    rw [mem_cons, not_or] at hops
    obtain ⟨r', hr', hsince, hbase, hgone⟩ :=
      ih (RingOp.apply_live hr (Ne.symm hops.1)) (h.on id op) hops.2
    refine ⟨r', hr', ?_, (RingOp.base_le_on id r op).trans hbase, ?_⟩
    · rw [emitted, flatMap_cons, ← append_assoc]
      exact hsince
    · intro hin
      rcases mem_cons.mp hin with hop | hin
      · rw [← hop] at hbase
        exact (h.invalidate text).2.trans_le hbase
      · exact hgone hin

/-! ## Resuming -/

/-- An offset handed out for a terminal that has a ring, and any history after it that
does not drop the terminal. Asking for what came since gives nothing, or exactly what the
terminal emitted since with its current total; and nothing when the offsets were retired
in between. -/
theorem since_resumes (before after : List RingOp) (op : RingOp) (id : String) (o : ℕ)
    (hand : op.handed_out (PtyRings.run (fun _ => none) before) = some (id, o))
    (hlive : PtyRings.run (fun _ => none) (before ++ [op]) id ≠ none)
    (hkept : RingOp.drop_ring id ∉ after) :
    let rings := PtyRings.run (fun _ => none) (before ++ op :: after)
    (rings.since id o = none ∨ rings.since id o = some (emitted id after, rings.total id))
      ∧ (RingOp.invalidate_all ∈ after → rings.since id o = none) := by
  have hone : PtyRings.run (fun _ => none) (before ++ [op])
      = op.apply (PtyRings.run (fun _ => none) before) := foldl_append
  have hall : PtyRings.run (fun _ => none) (before ++ op :: after)
      = (op.apply (PtyRings.run (fun _ => none) before)).run after := foldl_append
  obtain ⟨r, hr⟩ := ne_none_iff_exists'.mp hlive
  rw [hone] at hr
  have hnow : SinceThen r o [] := by
    rw [RingOp.handed_out_total hand hr]
    exact SinceThen.now r
  obtain ⟨r', hr', hsince, -, hgone⟩ := hnow.run hr hkept
  intro rings
  have hrings : rings id = some r' := by
    change PtyRings.run _ _ id = _
    rw [hall, hr']
  rw [PtyRings.since, PtyRings.total, hrings]
  exact ⟨hsince.since, fun hin => Ring.since_retired (hgone hin)⟩

/-- A viewer that was away for one chunk. -/
theorem since_resumes_one_chunk :
    let rings := PtyRings.run (fun _ => none)
      [.push "t1" ['h', 'i', ' '], .push "t1" ['é'], .push "t1" [' ', 'ü', 'b']]
    rings.since "t1" 5 = none ∨ rings.since "t1" 5 = some ([' ', 'ü', 'b'], rings.total "t1") :=
  (since_resumes [.push "t1" ['h', 'i', ' ']] [.push "t1" [' ', 'ü', 'b']]
    (.push "t1" ['é']) "t1" 5 (by rfl) (by decide) (by decide)).1

end Lpm.Terminal
