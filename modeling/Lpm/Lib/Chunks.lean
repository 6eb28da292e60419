/-
A list cut into pieces of one length, the last of which may be shorter.
-/
import Mathlib.Tactic.Common

set_option autoImplicit false

namespace Chunks

open List

variable {α : Type*}

/-- The pieces of `l`, of `n` elements each but for the last. -/
def chunks (n : ℕ) (l : List α) : List (List α) :=
  (List.range ((l.length + n - 1) / n)).map fun i => (l.drop (i * n)).take n

section
variable {n : ℕ} {l : List α}

/-- The first `count` pieces are what the list begins with. -/
theorem flatten_pieces (n count : ℕ) (l : List α) :
    ((List.range count).map fun i => (l.drop (i * n)).take n).flatten = l.take (count * n) := by
  induction count with
  | zero => simp
  | succ count ih =>
    rw [range_succ, map_append, flatten_append, ih, map_singleton,
      flatten_singleton, Nat.succ_mul, take_add]

theorem flatten_chunks (hn : 0 < n) (l : List α) : (chunks n l).flatten = l := by
  rw [chunks, flatten_pieces]
  apply take_of_length_le
  have hceil := Nat.div_add_mod (l.length + n - 1) n
  have hmod := Nat.mod_lt (l.length + n - 1) hn
  have hcomm := Nat.mul_comm n ((l.length + n - 1) / n)
  omega

theorem length_le_of_mem_chunks {piece : List α} (h : piece ∈ chunks n l) : piece.length ≤ n := by
  obtain ⟨i, -, rfl⟩ := List.mem_map.mp h
  exact length_take_le n _

end

end Chunks
