/-
ConPTY's startup handshake, `conptyreply.rs`: the reader answers the requests conhost opens
its output with, and keeps them out of what the terminal sees.

A chunk is read behind what was held of the chunk before it. The loop takes a turn at what
is left: a sequence that is complete, a run of anything else, or a sequence that the chunk
ends in the middle of, which is held. Everything behind the handshake is handed on.
-/
import Mathlib.Tactic.Common

set_option autoImplicit false

namespace Lpm.ConPty

open List Option

abbrev Bytes := List UInt8

def ESC : UInt8 := 0x1b
def BRACKET : UInt8 := 0x5b

/-- `\x1b[6n`. -/
def CPR_REQUEST : Bytes := [0x1b, 0x5b, 0x36, 0x6e]

/-- `\x1b[c` and `\x1b[0c`. -/
def DA1_REQUESTS : List Bytes := [[0x1b, 0x5b, 0x63], [0x1b, 0x5b, 0x30, 0x63]]

/-- `\x1b[1;1R`. -/
def CPR_REPLY : Bytes := [0x1b, 0x5b, 0x31, 0x3b, 0x31, 0x52]

/-- `\x1b[?1;2c`. -/
def DA1_REPLY : Bytes := [0x1b, 0x5b, 0x3f, 0x31, 0x3b, 0x32, 0x63]

def WINDOW : ℕ := 16 * 1024
def HELD_CAP : ℕ := 64

structure Handshake where
  held : Bytes
  seen : ℕ
  cpr : Bool
  da1 : Bool
  «over» : Bool
  deriving DecidableEq

/-- `Handshake::default`. -/
def Handshake.default : Handshake :=
  { held := [], seen := 0, cpr := false, da1 := false, «over» := false }

/-! ## Tokens -/

inductive Token where
  | csi (len : ℕ)
  | partial_sequence
  | other
  deriving DecidableEq

/-- A byte of a sequence that does not end it. -/
def is_param (b : UInt8) : Bool := 0x20 ≤ b && b ≤ 0x3f

def is_final (b : UInt8) : Bool := 0x40 ≤ b && b ≤ 0x7e

/-- What a sequence comes to that has `len` bytes before these, where they tell. -/
def csi_body (len : ℕ) : Bytes → Option Token
  | [] => none
  | b :: rest =>
    if is_param b then csi_body (len + 1) rest
    else if is_final b then some (.csi (len + 1))
    else some .other

def token : Bytes → Token
  | [] => .other
  | [first] => if first ≠ ESC then .other else .partial_sequence
  | first :: second :: body =>
    if first ≠ ESC then .other
    else if second ≠ BRACKET then .other
    else
      (csi_body 2 body).getD
        (if (first :: second :: body).length > HELD_CAP then .other else .partial_sequence)

/-! ## Scanning -/

/-- How far a run goes that starts with its first byte: up to the next sequence. -/
def run_length (rest : Bytes) : ℕ :=
  match rest.tail.findIdx? fun b => b = ESC with
  | some p => p + 1
  | none => rest.length

/-- `len` bytes were taken, which may have been the last of the handshake. -/
def Handshake.take (hs : Handshake) (len : ℕ) : Handshake :=
  { hs with
    seen := hs.seen + len
    «over» := hs.cpr && hs.da1 || !hs.cpr && hs.seen + len > WINDOW }

/-- What a turn of the loop comes to: it goes on behind `len` bytes, or is the last one. -/
inductive Turn where
  | go (hs : Handshake) (len : ℕ) (output reply : Bytes)
  | stop (hs : Handshake) (output : Bytes)

def Handshake.turn (hs : Handshake) (rest : Bytes) : Turn :=
  match token rest with
  | .partial_sequence => .stop { hs with held := rest } []
  | .csi len =>
    let seq := rest.take len
    if !hs.cpr ∧ seq = CPR_REQUEST then .go ({ hs with cpr := true }.take len) len [] CPR_REPLY
    else if !hs.da1 ∧ seq ∈ DA1_REQUESTS then
      .go ({ hs with da1 := true }.take len) len [] DA1_REPLY
    else .go (hs.take len) len seq []
  | .other =>
    if hs.cpr then .stop { hs with «over» := true } rest
    else .go (hs.take (run_length rest)) (run_length rest) (rest.take (run_length rest)) []

/-- The loop over the bytes of a chunk, with the rest of them handed on where it ends: what is
left behind, the output, and the reply. A turn takes a byte at least. -/
def Handshake.loop : ℕ → Handshake → Bytes → Handshake × Bytes × Bytes
  | 0, hs, rest => (hs, rest, [])
  | turns + 1, hs, rest =>
    if hs.over ∨ rest = [] then (hs, rest, [])
    else
      match hs.turn rest with
      | .stop hs output => (hs, output, [])
      | .go hs len output reply =>
        let (hs, output', reply') := Handshake.loop turns hs (rest.drop len)
        (hs, output ++ output', reply ++ reply')

/-- What the terminal should see of `chunk`, and the bytes conhost is waiting to read back. -/
def Handshake.scan (hs : Handshake) (chunk : Bytes) : Handshake × Bytes × Bytes :=
  if hs.over then (hs, chunk, [])
  else
    let bytes := hs.held ++ chunk
    Handshake.loop bytes.length { hs with held := [] } bytes

/-- A stream that comes in chunks: what is left behind, and all output and replies in order. -/
def feed (chunks : List Bytes) : Handshake × Bytes × Bytes :=
  chunks.foldl
    (fun (hs, output, reply) chunk =>
      let (hs, output', reply') := hs.scan chunk
      (hs, output ++ output', reply ++ reply'))
    (.default, [], [])

/-! ## What a token is -/

/-- `bytes` are a control sequence, from its introducer to its final byte. -/
def Csi (bytes : Bytes) : Prop := ∃ params final,
  bytes = ESC :: BRACKET :: (params ++ [final]) ∧ params.all is_param = true ∧ is_final final = true

section
variable {a b : Bytes} {len n : ℕ} {tok : Token}

theorem csi_body_append (h : csi_body n a = some tok) : csi_body n (a ++ b) = some tok := by
  induction a generalizing n with
  | nil => exact nomatch h
  | cons x a ih =>
    rw [cons_append]
    rw [csi_body] at h ⊢
    by_cases hparam : is_param x = true
    · rw [if_pos hparam] at h ⊢
      exact ih h
    · rw [if_neg hparam] at h ⊢
      exact h

/-- Parameters up to the end of the bytes: what follows is read on from there. -/
theorem csi_body_of_none (h : csi_body n a = none) :
    csi_body n (a ++ b) = csi_body (n + a.length) b := by
  induction a generalizing n with
  | nil => rfl
  | cons x a ih =>
    rw [csi_body] at h
    by_cases hparam : is_param x = true
    · rw [if_pos hparam] at h
      rw [cons_append, csi_body, if_pos hparam, ih h, length_cons]
      congr 1
      omega
    · rw [if_neg hparam] at h
      split at h
      · exact nomatch h
      · exact nomatch h

theorem csi_body_ne_held : csi_body n a ≠ some .partial_sequence := by
  induction a generalizing n with
  | nil => nofun
  | cons x a ih =>
    rw [csi_body]
    split_ifs
    · exact ih
    · nofun
    · nofun

/-- The body of a sequence: its parameters and its final byte. -/
theorem csi_body_csi (h : csi_body n a = some (.csi len)) : ∃ params final rest,
    a = params ++ final :: rest ∧ params.all is_param = true ∧ is_final final = true
      ∧ len = n + params.length + 1 := by
  induction a generalizing n with
  | nil => exact nomatch h
  | cons x a ih =>
    rw [csi_body] at h
    by_cases hparam : is_param x = true
    · rw [if_pos hparam] at h
      obtain ⟨params, final, rest, rfl, hparams, hfinal, hlen⟩ := ih h
      refine ⟨x :: params, final, rest, rfl, ?_, hfinal, ?_⟩
      · rw [all_cons, hparam, hparams]
        rfl
      · rw [length_cons]
        omega
    · rw [if_neg hparam] at h
      by_cases hfinal : is_final x = true
      · rw [if_pos hfinal] at h
        exact ⟨[], x, a, rfl, rfl, hfinal, (Token.csi.inj (some.inj h)).symm⟩
      · rw [if_neg hfinal] at h
        exact nomatch h

theorem token_escape (body : Bytes) : token (ESC :: BRACKET :: body) = (csi_body 2 body).getD
    (if (ESC :: BRACKET :: body).length > HELD_CAP then .other else .partial_sequence) := by
  rw [token, if_neg (not_not_intro rfl), if_neg (not_not_intro rfl)]

/-- A token that is not `.other` is one of a sequence: an escape, with what follows it. -/
theorem escape_of_token (h : token a ≠ .other) :
    a = [ESC] ∨ ∃ body, a = ESC :: BRACKET :: body := by
  unfold token at h
  split at h
  · exact absurd rfl h
  next first =>
    by_cases hfirst : first = ESC
    · exact .inl (congrArg (fun x => [x]) hfirst)
    · rw [if_pos hfirst] at h
      exact absurd rfl h
  next first second body =>
    by_cases hfirst : first = ESC
    · rw [if_neg (not_not_intro hfirst)] at h
      by_cases hsecond : second = BRACKET
      · rw [hfirst, hsecond]
        exact .inr ⟨body, rfl⟩
      · rw [if_pos hsecond] at h
        exact absurd rfl h
    · rw [if_pos hfirst] at h
      exact absurd rfl h

/-- A token that is complete is one of a sequence, and its body tells. -/
theorem csi_body_of_token (h : token a = .csi len) :
    ∃ body, a = ESC :: BRACKET :: body ∧ csi_body 2 body = some (.csi len) := by
  have hne : token a ≠ .other := by
    rw [h]
    nofun
  rcases escape_of_token hne with rfl | ⟨body, rfl⟩
  · have hone : token [ESC] = .partial_sequence := by decide
    rw [hone] at h
    exact nomatch h
  · refine ⟨body, rfl, ?_⟩
    rw [token_escape] at h
    cases hbody : csi_body 2 body with
    | some tok =>
      rw [hbody] at h
      exact congrArg some h
    | none =>
      rw [hbody, getD_none] at h
      split at h
      · exact nomatch h
      · exact nomatch h

/-- What follows a complete sequence does not change that it is one. -/
theorem token_append_csi (h : token a = .csi len) : token (a ++ b) = .csi len := by
  obtain ⟨body, rfl, hbody⟩ := csi_body_of_token h
  rw [cons_append, cons_append, token_escape, csi_body_append hbody]
  rfl

theorem csi_of_token (h : token a = .csi len) :
    0 < len ∧ len ≤ a.length ∧ Csi (a.take len) := by
  obtain ⟨body, rfl, hbody⟩ := csi_body_of_token h
  obtain ⟨params, final, rest, rfl, hparams, hfinal, rfl⟩ := csi_body_csi hbody
  have hlen : 2 + params.length + 1 = (ESC :: BRACKET :: (params ++ [final])).length := by
    simp
    omega
  have hsplit : ESC :: BRACKET :: (params ++ final :: rest)
      = (ESC :: BRACKET :: (params ++ [final])) ++ rest := by simp
  refine ⟨Nat.succ_pos _, ?_, params, final, ?_, hparams, hfinal⟩
  · rw [hsplit, hlen, length_append]
    omega
  · rw [hsplit, hlen, take_left]

/-- What follows a run does not make a sequence of it, but where it goes on as one that is
longer than may be held. -/
theorem token_append_other (ha : a ≠ []) (h : token a = .other)
    (hshort : ∀ seq, seq <+: a ++ b → Csi seq → seq.length ≤ HELD_CAP) :
    token (a ++ b) = .other := by
  by_contra hne
  rcases escape_of_token hne with hone | ⟨body, hjoined⟩
  -- one escape is a sequence that begins, and not a run
  · have hesc : a = [ESC] := by
      cases a with
      | nil => exact absurd rfl ha
      | cons x a =>
        rw [cons_append] at hone
        obtain ⟨hx, hnil⟩ := List.cons.inj hone
        rw [hx, (append_eq_nil_iff.mp hnil).1]
    rw [hesc] at h
    exact absurd h (by decide)
  match a, ha, h with
  | [x], _, h =>
    obtain ⟨hx, -⟩ := List.cons.inj hjoined
    rw [hx] at h
    exact absurd h (by decide)
  | x :: y :: rest, _, h =>
    rw [cons_append, cons_append] at hjoined
    obtain ⟨hx, htail⟩ := List.cons.inj hjoined
    obtain ⟨hy, hbody⟩ := List.cons.inj htail
    rw [hx, hy, token_escape] at h
    rw [cons_append, cons_append, hx, hy] at hne hshort
    rw [token_escape] at hne
    cases hrest : csi_body 2 rest with
    | some tok =>
      rw [hrest] at h
      rw [csi_body_append hrest] at hne
      exact hne h
    | none =>
      -- the run is a sequence too long to be held, and goes on
      rw [hrest, getD_none] at h
      have hlong : (ESC :: BRACKET :: rest).length > HELD_CAP := by
        by_contra hle
        rw [if_neg hle] at h
        exact nomatch h
      have hlonger : (ESC :: BRACKET :: (rest ++ b)).length > HELD_CAP := by
        rw [length_cons, length_cons, length_append]
        rw [length_cons, length_cons] at hlong
        omega
      cases hwhole : csi_body 2 (rest ++ b) with
      | none =>
        rw [hwhole, getD_none, if_pos hlonger] at hne
        exact hne rfl
      | some tok =>
        rw [hwhole, getD_some] at hne
        cases tok with
        | other => exact hne rfl
        | partial_sequence => exact csi_body_ne_held hwhole
        | csi len =>
          have hjoined : token (ESC :: BRACKET :: (rest ++ b)) = .csi len := by
            rw [token_escape, hwhole]
            rfl
          obtain ⟨-, hlen, hcsi⟩ := csi_of_token hjoined
          have hcap := hshort _ (List.take_prefix _ _) hcsi
          rw [length_take_of_le hlen] at hcap
          rw [csi_body_of_none hrest] at hwhole
          obtain ⟨params, final, _, _, _, _, hpast⟩ := csi_body_csi hwhole
          rw [length_cons, length_cons] at hlong
          omega

/-! ## How far a run goes -/

theorem run_length_of_esc_mem (ha : a ≠ []) (hesc : ESC ∈ a.tail) :
    run_length (a ++ b) = run_length a ∧ run_length a ≤ a.length := by
  have hfound : (a.tail.findIdx? fun b => b = ESC).isSome := by
    rw [findIdx?_isSome, List.any_eq_true]
    exact ⟨ESC, hesc, decide_eq_true rfl⟩
  obtain ⟨p, hp⟩ := isSome_iff_exists.mp hfound
  have hlt : p < a.tail.length := (findIdx?_eq_some_iff_findIdx_eq.mp hp).1
  rw [length_tail] at hlt
  rw [run_length, run_length, tail_append_of_ne_nil ha, findIdx?_append, hp]
  exact ⟨rfl, show p + 1 ≤ a.length by omega⟩

theorem findIdx?_eq_none_of_esc (hesc : ESC ∉ a) : (a.findIdx? fun b => b = ESC) = none := by
  rw [findIdx?_eq_none_iff]
  intro x hx
  apply decide_eq_false
  rintro rfl
  exact hesc hx

/-- A run without another escape goes on to the end of the bytes. -/
theorem run_length_eq (hesc : ESC ∉ a.tail) : run_length a = a.length := by
  rw [run_length, findIdx?_eq_none_of_esc hesc]

/-- And beyond it up to the next one. -/
theorem run_length_append (ha : a ≠ []) (hesc : ESC ∉ a.tail) : run_length (a ++ b)
    = a.length + ((b.findIdx? fun b => b = ESC).getD b.length) := by
  have hlen : a.tail.length + 1 = a.length := by
    rw [length_tail]
    have hpos := length_pos_iff.mpr ha
    omega
  rw [run_length, tail_append_of_ne_nil ha, findIdx?_append, findIdx?_eq_none_of_esc hesc]
  cases hnext : b.findIdx? fun b => b = ESC with
  | none =>
    dsimp only [map_none, none_or]
    rw [length_append]
    rfl
  | some p =>
    dsimp only [map_some, none_or, getD_some]
    omega

theorem run_length_pos (ha : a ≠ []) : 0 < run_length a := by
  rw [run_length]
  split
  · exact Nat.succ_pos _
  · exact length_pos_iff.mpr ha

end

end Lpm.ConPty
