/-
A session over its transport: frames sealed at one end, their messages on the way, and the
other end opening them one by one, in any interleaving and with the guest let in at any
moment.

What is on the way is known by the plain texts the sender wrote, from the state the receiver
has caught up with; `Carry` tells the frames they come to with what the receiver holds.
-/
import Mathlib.Algebra.Order.Ring.Int
import Lpm.Share.Session

set_option autoImplicit false

namespace Lpm.Share

open List Option

open Transition

/-! ## Runs -/

/-- A message of whoever is at the other end, or the guest let in. -/
inductive Arrival where
  | message (message : Bytes)
  | admitted

inductive Event where
  | send (frame : Bytes)
  | deliver
  | admit_guest

/-- Both ends of one direction, with what is on the way, every frame sent and every frame
opened, and whether the receiver ever refused a message. -/
structure Link (σ : Type*) where
  sender : Session σ
  flight : List Bytes
  receiver : Session σ
  sent : List Bytes
  opened : List Bytes
  refused : Bool

section
variable {σ : Type*} (t : Transport σ)

def Session.receive (s : Session σ) : Arrival → Session σ
  | .message message => (s.open_message t message).1
  | .admitted => s.admit_guest

def Link.start (w r : σ) : Link σ :=
  { sender := .new w, flight := [], receiver := .new r, sent := [], opened := [], refused := false }

def Link.step (s : Link σ) : Event → Option (Link σ)
  | .send frame =>
    match s.sender.seal t frame with
    | (_, none) => none
    | (sender, some messages) =>
      some { s with sender, flight := s.flight ++ messages, sent := s.sent ++ [frame] }
  | .deliver =>
    match s.flight with
    | [] => none
    | message :: flight =>
      match s.receiver.open_message t message with
      | (receiver, .ok frame) =>
        some { s with receiver, flight, opened := s.opened ++ frame.toList }
      | (receiver, .error _) => some { s with receiver, flight, refused := true }
  | .admit_guest => some { s with receiver := s.receiver.admit_guest }

/-- Every run of a session, from two ends that have just shaken hands. -/
def link (Ready : σ → σ → Prop) : System (Link σ) Event where
  init s := ∃ w r, Ready w r ∧ s = Link.start w r
  step s event s' := s.step t event = some s'

/-- The frame a message belongs to that comes is no longer than the receiver allows by then. -/
def Fits (s : Link σ) : Event → Prop
  | .deliver => ∀ frame ∈ (s.sent.drop s.opened.length).head?, frame.length ≤ s.receiver.max_frame
  | _ => True

end

/-! ## What the receiver holds -/

/-- What is held of a frame is within the limit, and the limit never above a frame's. -/
structure Session.Bounded {σ : Type*} (s : Session σ) : Prop where
  partial_le : s.partial_frame.length ≤ s.max_frame
  max_le : s.max_frame ≤ MAX_FRAME

section
variable {σ : Type*} {t : Transport σ} {s : Session σ}

theorem Session.Bounded.open_message (h : s.Bounded) (message : Bytes) :
    (s.open_message t message).1.Bounded := by
  rw [Session.open_message]
  split_ifs
  · exact h
  split
  · exact ⟨h.partial_le, h.max_le⟩
  · exact ⟨h.partial_le, h.max_le⟩
  rename_i flag body _
  by_cases hlimit : s.partial_frame.length + body.length > s.max_frame
  · rw [if_pos hlimit]
    exact ⟨h.partial_le, h.max_le⟩
  rw [if_neg hlimit]
  have hwhole : (s.partial_frame ++ body).length ≤ s.max_frame := by
    rw [length_append]
    omega
  -- a flag that is neither is refused with its body taken in
  split_ifs
  · exact ⟨Nat.zero_le _, h.max_le⟩
  · exact ⟨hwhole, h.max_le⟩
  · exact ⟨hwhole, h.max_le⟩

theorem Session.Bounded.admit_guest (h : s.Bounded) : s.admit_guest.Bounded :=
  ⟨Nat.le_trans h.partial_le h.max_le, Nat.le_refl _⟩

theorem Session.Bounded.receive (h : s.Bounded) (arrival : Arrival) :
    (s.receive t arrival).Bounded := by
  cases arrival with
  | message message => exact h.open_message message
  | admitted => exact h.admit_guest

theorem Session.bounded_new (r : σ) : (Session.new r).Bounded :=
  ⟨Nat.zero_le _, show MAX_JOIN_FRAME ≤ MAX_FRAME by decide⟩

/-- Whatever comes, in whatever order. -/
theorem Session.Bounded.run (h : s.Bounded) (arrivals : List Arrival) :
    (arrivals.foldl (Session.receive t) s).Bounded := by
  induction arrivals generalizing s with
  | nil => exact h
  | cons arrival arrivals ih => exact ih (h.receive arrival)

end

/-! ## What is on the way -/

/-- The plain texts on the way, written from a state the receiver is ready for, come to the
frames that are sent and not yet opened. -/
structure Link.Inv {σ : Type*} (t : Transport σ) (Ready : σ → σ → Prop) (s : Link σ) : Prop where
  carried : ∃ w plains frames, Ready w s.receiver.transport
    ∧ write_all t w plains = (s.sender.transport, some s.flight)
    ∧ Carry s.receiver.partial_frame plains frames
    ∧ s.sent = s.opened ++ frames
    ∧ ∀ plain ∈ plains, 0 < plain.length ∧ plain.length ≤ PIECE + 1
  accepted : s.refused = false

section
variable {σ : Type*} {t : Transport σ} {Ready : σ → σ → Prop} {left : σ → ℕ} {s s' : Link σ}

theorem seal_eq {session : Session σ} {frame : Bytes} {transport : σ} {out : Option (List Bytes)}
    (hwrite : write_all t session.transport (flagged (pieces frame)) = (transport, out)) :
    session.seal t frame = ({ session with transport }, out) := by
  rw [Session.seal, hwrite]

/-- What sending a frame comes to, by what sealing it does. -/
theorem Link.step_send {frame : Bytes} {sealed : Session σ × Option (List Bytes)}
    (h : s.sender.seal t frame = sealed) : s.step t (.send frame)
      = sealed.2.map fun messages =>
          { s with sender := sealed.1, flight := s.flight ++ messages, sent := s.sent ++ [frame] } := by
  rw [Link.step.eq_1, h]
  obtain ⟨sender, out⟩ := sealed
  cases out with
  | none => rfl
  | some messages => rfl

theorem Link.Inv.send (h : s.Inv t Ready) {frame : Bytes} (hstep : s.step t (.send frame) = some s') :
    s'.Inv t Ready := by
  obtain ⟨w, plains, frames, hready, hwritten, hcarry, hsent, hlen⟩ := h.carried
  cases hwrite : write_all t s.sender.transport (flagged (pieces frame)) with
  | mk transport out =>
    rw [Link.step_send (seal_eq hwrite)] at hstep
    cases out with
    | none => exact nomatch hstep
    | some messages =>
      cases hstep
      refine ⟨⟨w, plains ++ flagged (pieces frame), frames ++ [frame], hready, ?_, ?_, ?_, ?_⟩,
        h.accepted⟩
      · exact write_all_append hwritten hwrite
      · exact hcarry.append (carry_frame frame)
      · dsimp only
        rw [hsent, append_assoc]
      · intro plain hin
        rcases mem_append.mp hin with hin | hin
        · exact hlen plain hin
        · exact length_of_mem_flagged hin

/-- What the receiver makes of the next message on the way. -/
theorem open_next (hd : Delivers t Ready left) {receiver : Session σ} {w w' : σ}
    {plain : Bytes} {message : Bytes} (hready : Ready w receiver.transport)
    (hwrite : t.write_message w plain = (w', some message))
    (hlen : 0 < plain.length ∧ plain.length ≤ PIECE + 1) :
    ∃ transport flag body, plain = flag :: body ∧ Ready w' transport ∧
      receiver.open_message t message
        = if receiver.partial_frame.length + body.length > receiver.max_frame then
            ({ receiver with transport }, .error ())
          else
            let whole := receiver.partial_frame ++ body
            if flag = 1 then ({ receiver with transport, partial_frame := [] }, .ok (some whole))
            else if flag = 0 then ({ receiver with transport, partial_frame := whole }, .ok none)
            else ({ receiver with transport, partial_frame := whole }, .error ()) := by
  obtain ⟨hsize, transport, hread, hready'⟩ := hd.delivered hready hwrite
  have hroom : PIECE + 1 + TAG ≤ MAX_MESSAGE := by decide
  have htaken : ¬(message.length > MAX_MESSAGE ∨ message.length ≤ TAG) := by omega
  cases plain with
  | nil => exact absurd hlen.1 (Nat.lt_irrefl 0)
  | cons flag body =>
    refine ⟨transport, flag, body, rfl, hready', ?_⟩
    rw [Session.open_message, if_neg htaken, hread]

theorem Link.Inv.deliver (hd : Delivers t Ready left) (h : s.Inv t Ready) (hfits : Fits s .deliver)
    (hstep : s.step t .deliver = some s') : s'.Inv t Ready := by
  obtain ⟨w, plains, frames, hready, hwritten, hcarry, hsent, hlen⟩ := h.carried
  have hfits' : ∀ frame ∈ frames.head?, frame.length ≤ s.receiver.max_frame := by
    have hleft : s.sent.drop s.opened.length = frames := by rw [hsent, drop_left]
    rw [← hleft]
    exact hfits
  unfold Link.step at hstep
  dsimp only at hstep
  cases plains with
  | nil =>
    -- nothing is on the way
    have hflight : s.flight = [] := (some.inj (Prod.mk.inj hwritten).2).symm
    rw [hflight] at hstep
    exact nomatch hstep
  | cons plain plains =>
    obtain ⟨middle, message, rest, hwrite, hrest, hflight⟩ := write_all_cons hwritten
    obtain ⟨transport, flag, body, rfl, hready', hopen⟩ :=
      open_next hd hready hwrite (hlen plain mem_cons_self)
    have hlen' : ∀ plain ∈ plains, 0 < plain.length ∧ plain.length ≤ PIECE + 1 :=
      fun plain hin => hlen plain (mem_cons_of_mem _ hin)
    rw [hflight] at hstep
    dsimp only at hstep
    rw [hopen] at hstep
    rcases hcarry.next with ⟨rfl, hnext⟩ | ⟨rfl, rest', rfl, hnext⟩
    · have hwhole := hnext.part_length_le hfits'
      rw [length_append] at hwhole
      rw [if_neg (by omega), if_neg (by decide), if_pos rfl] at hstep
      cases hstep
      refine ⟨⟨middle, plains, frames, hready', hrest, hnext, ?_, hlen'⟩, h.accepted⟩
      dsimp only
      rw [toList_none, append_nil]
      exact hsent
    · have hwhole := hfits' _ rfl
      rw [length_append] at hwhole
      rw [if_neg (by omega), if_pos rfl] at hstep
      cases hstep
      refine ⟨⟨middle, plains, rest', hready', hrest, hnext, ?_, hlen'⟩, h.accepted⟩
      dsimp only
      rw [toList_some, append_assoc, singleton_append]
      exact hsent

theorem link_inv (hd : Delivers t Ready left) (h : Reachable ((link t Ready).when Fits) s) :
    s.Inv t Ready := by
  refine h.invariant ?_ ?_
  · rintro s ⟨w, r, hready, rfl⟩
    exact ⟨⟨w, [], [], hready, rfl, .none, rfl, nofun⟩, rfl⟩
  · intro s event s' hs ⟨hfits, hstep⟩
    cases event with
    | send frame => exact hs.send hstep
    | deliver => exact hs.deliver hd hfits hstep
    | admit_guest =>
      cases hstep
      exact ⟨hs.carried, hs.accepted⟩

/-- A receiver that is ready for it opens what is sealed, frame by frame and in order, and
what it holds of a frame is never more than its limit, whatever it is sent. -/
theorem frames_come_through (hd : Delivers t Ready left)
    (hs : Reachable ((link t Ready).when Fits) s) :
    s.refused = false
      ∧ s.opened <+: s.sent
      ∧ (s.flight = [] → s.opened = s.sent)
      ∧ (∀ message ∈ s.flight, message.length ≤ MAX_MESSAGE)
      ∧ (∀ frame, (pieces frame).length ≤ left s.sender.transport →
        (s.step t (.send frame)).isSome)
      ∧ ∀ (u : Transport σ) (r : σ) (arrivals : List Arrival),
        (arrivals.foldl (Session.receive u) (Session.new r)).partial_frame.length
          ≤ (arrivals.foldl (Session.receive u) (Session.new r)).max_frame := by
  have hinv := link_inv hd hs
  obtain ⟨w, plains, frames, hready, hwritten, hcarry, hsent, hlen⟩ := hinv.carried
  have hroom : PIECE + 1 + TAG ≤ MAX_MESSAGE := by decide
  refine ⟨hinv.accepted, ⟨frames, hsent.symm⟩, ?_, ?_, ?_, ?_⟩
  -- nothing is under way, so all that was written has arrived
  · intro hflight
    cases plains with
    | nil => rw [hsent, hcarry.frames_nil, append_nil]
    | cons plain plains =>
      obtain ⟨_, _, _, _, _, hmessages⟩ := write_all_cons hwritten
      rw [hflight] at hmessages
      exact nomatch hmessages
  · intro message hin
    have hmessage := hd.length_le hready hwritten (fun plain h => (hlen plain h).2) message hin
    omega
  · intro frame hleft
    have hsome := hd.write_all_isSome (fun plain h => @room_for_plain plain frame h)
      (show (flagged (pieces frame)).length ≤ left s.sender.transport by
        rw [length_flagged]
        exact hleft)
    cases hwrite : write_all t s.sender.transport (flagged (pieces frame)) with
    | mk transport out =>
      rw [hwrite] at hsome
      obtain ⟨messages, hmessages⟩ := isSome_iff_exists.mp hsome
      dsimp only at hmessages
      rw [hmessages] at hwrite
      rw [Link.step_send (seal_eq hwrite)]
      rfl
  · intro u r arrivals
    exact ((Session.bounded_new r).run arrivals).partial_le

end

/-! ## A guest that types before it is let in

A guest types two keys, sends an empty frame, and is let in while the first is on the
way. Its transport counts its messages in the tag of each. -/

def counted (n : ℕ) : Bytes := List.replicate TAG (UInt8.ofNat n)

def counting : Transport ℕ where
  write_message n plain := (n + 1, some (plain ++ counted n))
  read_message n message :=
    if message.drop (message.length - TAG) = counted n then
      (n + 1, some (message.take (message.length - TAG)))
    else (n, none)

theorem counting_delivers : Delivers counting Eq fun n => 2 ^ 64 - n where
  delivered := by
    intro n n' r plain message hready hwrite
    subst hready
    obtain ⟨rfl, hmessage⟩ := Prod.mk.inj hwrite
    cases hmessage
    have htag : (counted n).length = TAG := length_replicate
    have hlen : (plain ++ counted n).length = plain.length + TAG := by
      rw [length_append, htag]
    refine ⟨hlen, n + 1, ?_, rfl⟩
    dsimp only [counting]
    rw [hlen, Nat.add_sub_cancel, drop_left, take_left, if_pos rfl]
  written := by
    intro n plain hleft hlen
    refine ⟨n + 1, _, rfl, ?_⟩
    omega

def shaken_hands : Link ℕ := .start 0 0

def typed : Link ℕ := (shaken_hands.step counting (.send [108, 115])).get (by decide +kernel)

def typed_more : Link ℕ := (typed.step counting (.send [])).get (by decide +kernel)

def let_in : Link ℕ := (typed_more.step counting .admit_guest).get (by decide +kernel)

def read_first : Link ℕ := (let_in.step counting .deliver).get (by decide +kernel)

def read_both : Link ℕ := (read_first.step counting .deliver).get (by decide +kernel)

theorem frames_come_through_two : read_both.opened = [[108, 115], []] := by
  have hstart : Reachable ((link counting Eq).when Fits) shaken_hands := .start ⟨0, 0, rfl, rfl⟩
  have htyped : shaken_hands.step counting (.send [108, 115]) = some typed :=
    (some_get _).symm
  have hmore : typed.step counting (.send []) = some typed_more := (some_get _).symm
  have hlet_in : typed_more.step counting .admit_guest = some let_in := (some_get _).symm
  have hfirst : let_in.step counting .deliver = some read_first := (some_get _).symm
  have hboth : read_first.step counting .deliver = some read_both := (some_get _).symm
  have hfits : ∀ frame ∈ (let_in.sent.drop let_in.opened.length).head?,
      frame.length ≤ let_in.receiver.max_frame := by decide +kernel
  have hfits' : ∀ frame ∈ (read_first.sent.drop read_first.opened.length).head?,
      frame.length ≤ read_first.receiver.max_frame := by decide +kernel
  have hone : Reachable ((link counting Eq).when Fits) typed :=
    hstart.next (a := .send [108, 115]) ⟨trivial, htyped⟩
  have htwo : Reachable ((link counting Eq).when Fits) typed_more :=
    hone.next (a := .send []) ⟨trivial, hmore⟩
  have hthree : Reachable ((link counting Eq).when Fits) let_in :=
    htwo.next (a := .admit_guest) ⟨trivial, hlet_in⟩
  have hfour : Reachable ((link counting Eq).when Fits) read_first :=
    hthree.next (a := .deliver) ⟨hfits, hfirst⟩
  have hread : Reachable ((link counting Eq).when Fits) read_both :=
    hfour.next (a := .deliver) ⟨hfits', hboth⟩
  have hflight : read_both.flight = [] := by decide +kernel
  have hsent : read_both.sent = [[108, 115], []] := by decide +kernel
  exact ((frames_come_through counting_delivers hread).2.2.1 hflight).trans hsent

end Lpm.Share
