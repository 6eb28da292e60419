/-
The frames of a shared tab's session, `sharenoise.rs`: a frame is cut into pieces, each
opening with a byte that tells the last one, and every piece travels as one message of an
encrypted transport.

The transport is `snow`'s, of which nothing is known here but what `Delivers` says: what one
end writes, the other end reads, in the order written. The sender may be any number of
messages ahead of the receiver, and the receiver's limit on a frame is raised in between,
when the guest is let in.
-/
import Lpm.Lib.Chunks
import Lpm.Lib.Transition

set_option autoImplicit false

namespace Lpm.Share

open Transition Chunks

abbrev Bytes := List UInt8

def TAG : ℕ := 16
def MAX_MESSAGE : ℕ := 65535
def PIECE : ℕ := 32 * 1024
def MAX_FRAME : ℕ := 16 * 1024 * 1024
def MAX_JOIN_FRAME : ℕ := PIECE

/-! ## The session -/

/-- One end of a transport: what a state makes of bytes to write, and of bytes that came. -/
structure Transport (σ : Type*) where
  write_message : σ → Bytes → σ × Option Bytes
  read_message : σ → Bytes → σ × Option Bytes

structure Session (σ : Type*) where
  transport : σ
  partial_frame : Bytes
  max_frame : ℕ

section
variable {σ : Type*}

def Session.new (transport : σ) : Session σ :=
  { transport, partial_frame := [], max_frame := MAX_JOIN_FRAME }

/-- The guest was let in, so frames as big as lpm's own may come. -/
def Session.admit_guest (s : Session σ) : Session σ := { s with max_frame := MAX_FRAME }

/-- What a frame is cut into. The empty frame is one empty piece. -/
def pieces (frame : Bytes) : List Bytes :=
  let pieces := chunks PIECE frame
  if pieces.isEmpty then [[]] else pieces

/-- Each piece behind its flag, 1 on the last and 0 on the ones before it. -/
def flagged (pieces : List Bytes) : List Bytes :=
  let last := pieces.length - 1
  pieces.zipIdx.map fun (piece, i) => (if i = last then 1 else 0) :: piece

/-- The messages of some plain texts, up to the first that cannot be written. -/
def write_all (t : Transport σ) : σ → List Bytes → σ × Option (List Bytes)
  | w, [] => (w, some [])
  | w, plain :: rest =>
    match t.write_message w plain with
    | (w, none) => (w, none)
    | (w, some message) =>
      let (w, out) := write_all t w rest
      (w, out.map (message :: ·))

/-- The Noise messages that carry `frame`. -/
def Session.seal (t : Transport σ) (s : Session σ) (frame : Bytes) :
    Session σ × Option (List Bytes) :=
  let (transport, out) := write_all t s.transport (flagged (pieces frame))
  ({ s with transport }, out)

/-- Open one Noise message: the whole frame once its last piece is in. -/
def Session.open_message (t : Transport σ) (s : Session σ) (message : Bytes) :
    Session σ × Except Unit (Option Bytes) :=
  if message.length > MAX_MESSAGE ∨ message.length ≤ TAG then (s, .error ())
  else
    match t.read_message s.transport message with
    | (transport, none) => ({ s with transport }, .error ())
    | (transport, some []) => ({ s with transport }, .error ())
    | (transport, some (flag :: body)) =>
      if s.partial_frame.length + body.length > s.max_frame then ({ s with transport }, .error ())
      else
        let whole := s.partial_frame ++ body
        if flag = 1 then ({ s with transport, partial_frame := [] }, .ok (some whole))
        else if flag = 0 then ({ s with transport, partial_frame := whole }, .ok none)
        else ({ s with transport, partial_frame := whole }, .error ())

end

/-! ## What a frame is cut into -/

/-- Plain texts that carry frames to a receiver that holds a part of the first one. -/
inductive Carry : Bytes → List Bytes → List Bytes → Prop
  | none : Carry [] [] []
  | piece {part body : Bytes} {plains frames : List Bytes} (h : Carry (part ++ body) plains frames) :
    Carry part ((0 :: body) :: plains) frames
  | last {part body : Bytes} {plains frames : List Bytes} (h : Carry [] plains frames) :
    Carry part ((1 :: body) :: plains) ((part ++ body) :: frames)

section
variable {part frame : Bytes} {plains frames : List Bytes}

theorem Carry.append (h : Carry part plains frames) {plains' frames' : List Bytes}
    (h' : Carry [] plains' frames') : Carry part (plains ++ plains') (frames ++ frames') := by
  induction h with
  | none => exact h'
  | piece _ ih => exact .piece ih
  | last _ ih => exact .last ih

/-- What is held of a frame is what it begins with. -/
theorem Carry.part_prefix (h : Carry part plains frames) :
    part = [] ∨ ∃ frame ∈ frames.head?, part <+: frame := by
  induction h with
  | none => exact .inl rfl
  | @piece part body _ _ _ ih =>
    rcases ih with hnil | ⟨frame, hframe, hprefix⟩
    · exact .inl (List.append_eq_nil_iff.mp hnil).1
    · exact .inr ⟨frame, hframe, (List.prefix_append part body).trans hprefix⟩
  | @last part body _ _ _ _ => exact .inr ⟨part ++ body, rfl, List.prefix_append part body⟩

theorem Carry.frames_nil (h : Carry part [] frames) : frames = [] := by
  cases h
  rfl

/-- The next plain text adds to the frame that is held, or ends it. -/
theorem Carry.next {flag : UInt8} {body : Bytes} (h : Carry part ((flag :: body) :: plains) frames) :
    flag = 0 ∧ Carry (part ++ body) plains frames
      ∨ flag = 1 ∧ ∃ rest, frames = (part ++ body) :: rest ∧ Carry [] plains rest := by
  cases h with
  | piece h => exact .inl ⟨rfl, h⟩
  | last h => exact .inr ⟨rfl, _, rfl, h⟩

theorem Carry.part_length_le (h : Carry part plains frames) {limit : ℕ}
    (hfits : ∀ frame ∈ frames.head?, frame.length ≤ limit) : part.length ≤ limit := by
  rcases h.part_prefix with hnil | ⟨frame, hframe, hprefix⟩
  · rw [hnil]
    exact Nat.zero_le _
  · exact Nat.le_trans hprefix.length_le (hfits frame hframe)

/-- The flags do not depend on where the counting begins. -/
theorem map_flag (front : List Bytes) (tail : Bytes) (k : ℕ) :
    ((front ++ [tail]).zipIdx k).map
        (fun x => (if x.2 = k + front.length then (1 : UInt8) else 0) :: x.1)
      = front.map (0 :: ·) ++ [1 :: tail] := by
  induction front generalizing k with
  | nil => simp
  | cons piece front ih =>
    have hhead : ¬k = k + (front.length + 1) := by omega
    have hshift : k + (front.length + 1) = k + 1 + front.length := by omega
    rw [List.cons_append, List.zipIdx_cons, List.map_cons, List.length_cons]
    dsimp only
    rw [if_neg hhead, hshift, ih (k + 1)]
    rfl

theorem flagged_eq (front : List Bytes) (tail : Bytes) :
    flagged (front ++ [tail]) = front.map (0 :: ·) ++ [1 :: tail] := by
  have hflags := map_flag front tail 0
  rw [Nat.zero_add] at hflags
  rw [flagged, List.length_append, List.length_singleton, Nat.add_sub_cancel]
  exact hflags

theorem carry_pieces (part tail : Bytes) (front : List Bytes) :
    Carry part (front.map (0 :: ·) ++ [1 :: tail]) [part ++ front.flatten ++ tail] := by
  induction front generalizing part with
  | nil =>
    rw [List.flatten_nil, List.append_nil]
    exact .last .none
  | cons piece front ih =>
    rw [List.flatten_cons, ← List.append_assoc]
    exact .piece (ih (part ++ piece))

theorem pieces_ne_nil (frame : Bytes) : pieces frame ≠ [] := by
  unfold pieces
  dsimp only
  split
  · exact List.cons_ne_nil _ _
  next hsome =>
    intro hnil
    exact hsome (List.isEmpty_iff.mpr hnil)

theorem pieces_flatten (frame : Bytes) : (pieces frame).flatten = frame := by
  have hwhole := flatten_chunks (show 0 < PIECE by decide) frame
  unfold pieces
  dsimp only
  split
  next hnil =>
    rw [List.isEmpty_iff.mp hnil] at hwhole
    exact hwhole
  · exact hwhole

theorem length_le_of_mem_pieces {piece : Bytes} (h : piece ∈ pieces frame) :
    piece.length ≤ PIECE := by
  unfold pieces at h
  dsimp only at h
  split at h
  · rw [List.mem_singleton.mp h]
    exact Nat.zero_le _
  · exact length_le_of_mem_chunks h

/-- A frame's pieces carry it, whatever its length. -/
theorem carry_frame (frame : Bytes) : Carry [] (flagged (pieces frame)) [frame] := by
  obtain ⟨front, tail, hpieces⟩ := (pieces frame).eq_nil_or_concat.resolve_left (pieces_ne_nil frame)
  rw [List.concat_eq_append] at hpieces
  have hframe : [] ++ front.flatten ++ tail = frame := by
    rw [List.nil_append]
    have hwhole := pieces_flatten frame
    rw [hpieces, List.flatten_append, List.flatten_singleton] at hwhole
    exact hwhole
  have hcarry := carry_pieces [] tail front
  rw [hframe] at hcarry
  rw [hpieces, flagged_eq]
  exact hcarry

@[simp] theorem length_flagged (pieces : List Bytes) : (flagged pieces).length = pieces.length := by
  rw [flagged, List.length_map, List.length_zipIdx]

/-- A plain text has its flag, and with it no more than a piece. -/
theorem length_of_mem_flagged {plain : Bytes} (h : plain ∈ flagged (pieces frame)) :
    0 < plain.length ∧ plain.length ≤ PIECE + 1 := by
  obtain ⟨⟨piece, i⟩, hin, rfl⟩ := List.mem_map.mp h
  have hpiece : piece.length ≤ PIECE := length_le_of_mem_pieces (List.fst_mem_of_mem_zipIdx hin)
  rw [List.length_cons]
  omega

end

/-! ## The transport -/

/-- What one end writes the other end reads, in order: `Ready w r` where the next message a
writer in state `w` makes is the next one a reader in state `r` takes. A state can write as
many messages more as its nonces last. -/
structure Delivers {σ : Type*} (t : Transport σ) (Ready : σ → σ → Prop) (left : σ → ℕ) : Prop where
  delivered {w w' r : σ} {plain message : Bytes} (hready : Ready w r)
    (hwrite : t.write_message w plain = (w', some message)) :
    message.length = plain.length + TAG
      ∧ ∃ r', t.read_message r message = (r', some plain) ∧ Ready w' r'
  written {w : σ} {plain : Bytes} (hleft : 0 < left w) (hlen : plain.length + TAG ≤ MAX_MESSAGE) :
    ∃ w' message, t.write_message w plain = (w', some message) ∧ left w ≤ left w' + 1

section
variable {σ : Type*} {t : Transport σ} {Ready : σ → σ → Prop} {left : σ → ℕ}
  {w w' w'' r : σ} {plains plains' : List Bytes} {out out' : List Bytes}

theorem write_all_cons {plain : Bytes} (h : write_all t w (plain :: plains) = (w', some out)) :
    ∃ middle message rest, t.write_message w plain = (middle, some message)
      ∧ write_all t middle plains = (w', some rest) ∧ out = message :: rest := by
  rw [write_all] at h
  split at h
  · exact nomatch (Prod.mk.inj h).2
  next middle message hwrite =>
    obtain ⟨hstate, hout⟩ := Prod.mk.inj h
    obtain ⟨rest, hrest, hmessages⟩ := Option.map_eq_some_iff.mp hout
    exact ⟨middle, message, rest, hwrite, Prod.ext hstate hrest, hmessages.symm⟩

theorem write_all_append (h : write_all t w plains = (w', some out))
    (h' : write_all t w' plains' = (w'', some out')) :
    write_all t w (plains ++ plains') = (w'', some (out ++ out')) := by
  induction plains generalizing w out with
  | nil =>
    obtain ⟨rfl, hout⟩ := Prod.mk.inj h
    rw [← Option.some.inj hout]
    exact h'
  | cons plain plains ih =>
    obtain ⟨middle, message, rest, hwrite, hrest, rfl⟩ := write_all_cons h
    rw [List.cons_append, write_all, hwrite]
    dsimp only
    rw [ih hrest]
    rfl

theorem Delivers.length_le (hd : Delivers t Ready left) (hready : Ready w r)
    (h : write_all t w plains = (w', some out)) {n : ℕ} (hlen : ∀ plain ∈ plains, plain.length ≤ n) :
    ∀ message ∈ out, message.length ≤ n + TAG := by
  induction plains generalizing w r out with
  | nil =>
    rw [← Option.some.inj (Prod.mk.inj h).2]
    nofun
  | cons plain plains ih =>
    obtain ⟨middle, message, rest, hwrite, hrest, rfl⟩ := write_all_cons h
    obtain ⟨hsize, r', -, hready'⟩ := hd.delivered hready hwrite
    have hfirst := hlen plain List.mem_cons_self
    intro message' hin
    rcases List.mem_cons.mp hin with rfl | hin
    · omega
    · exact ih hready' hrest (fun plain h => hlen plain (List.mem_cons_of_mem _ h)) message' hin

/-- As many messages as the nonces last can be written. -/
theorem Delivers.write_all_isSome (hd : Delivers t Ready left)
    (hlen : ∀ plain ∈ plains, plain.length + TAG ≤ MAX_MESSAGE) (hleft : plains.length ≤ left w) :
    (write_all t w plains).2.isSome := by
  induction plains generalizing w with
  | nil => rfl
  | cons plain plains ih =>
    rw [List.length_cons] at hleft
    obtain ⟨w', message, hwrite, hmore⟩ := hd.written (show 0 < left w by omega)
      (hlen plain List.mem_cons_self)
    have hrest := ih (fun plain h => hlen plain (List.mem_cons_of_mem _ h))
      (show plains.length ≤ left w' by omega)
    rw [write_all, hwrite]
    dsimp only
    rw [Option.isSome_map]
    exact hrest

theorem room_for_plain {plain frame : Bytes} (h : plain ∈ flagged (pieces frame)) :
    plain.length + TAG ≤ MAX_MESSAGE := by
  have hlen := (length_of_mem_flagged h).2
  have hroom : PIECE + 1 + TAG ≤ MAX_MESSAGE := by decide
  omega

end

end Lpm.Share
