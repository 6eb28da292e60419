/-
The handshake does not depend on how the stream is cut into chunks.

Reading `a` and then `b` behind it takes the turns that reading `a ++ b` takes, but for two of
them. A sequence that `a` ends in the middle of is held and read again with `b`; and a run that
goes on from `a` into `b` is taken in two parts, each counted towards the window, so that the
handshake may end at the first part rather than at the whole. Behind its end all is handed on
either way.
-/
import Lpm.ConPty.Handshake
import Mathlib.Data.List.Induction

set_option autoImplicit false

namespace Lpm.ConPty

open List

/-! ## Turns -/

/-- What some bytes come to behind what was shown and replied before them. -/
def behind (output reply : Bytes) (x : Handshake × Bytes × Bytes) : Handshake × Bytes × Bytes :=
  (x.1, output ++ x.2.1, reply ++ x.2.2)

/-- The loop over all of some bytes. -/
def Handshake.read (hs : Handshake) (bytes : Bytes) : Handshake × Bytes × Bytes :=
  hs.loop bytes.length bytes

section
variable {hs hs' : Handshake} {a b rest output reply : Bytes} {len : ℕ}

/-- A turn at a complete sequence takes it whole. -/
theorem turn_csi (h : token rest = .csi len) : ∃ hs' output reply,
    hs.turn rest = .go hs' len output reply ∧ hs'.held = hs.held := by
  rw [Handshake.turn, h]
  dsimp only
  split_ifs
  · exact ⟨_, _, _, rfl, rfl⟩
  · exact ⟨_, _, _, rfl, rfl⟩
  · exact ⟨_, _, _, rfl, rfl⟩

theorem turn_held (h : token rest = .partial_sequence) :
    hs.turn rest = .stop { hs with held := rest } [] := by
  rw [Handshake.turn, h]

/-- Anything else behind the cursor request ends the handshake. -/
theorem turn_over (h : token rest = .other) (hcpr : hs.cpr = true) :
    hs.turn rest = .stop { hs with «over» := true } rest := by
  rw [Handshake.turn, h]
  exact if_pos hcpr

theorem turn_run (h : token rest = .other) (hcpr : hs.cpr = false) :
    hs.turn rest
      = .go (hs.take (run_length rest)) (run_length rest) (rest.take (run_length rest)) [] := by
  rw [Handshake.turn, h]
  exact if_neg (by rw [hcpr]; decide)

/-- A turn takes something. -/
theorem pos_of_turn (hne : rest ≠ []) (h : hs.turn rest = .go hs' len output reply) : 0 < len := by
  cases htoken : token rest with
  | csi n =>
    obtain ⟨_, _, _, hgo, -⟩ := @turn_csi hs rest n htoken
    rw [hgo] at h
    rw [← (Turn.go.inj h).2.1]
    exact (csi_of_token htoken).1
  | partial_sequence =>
    rw [turn_held htoken] at h
    exact nomatch h
  | other =>
    by_cases hcpr : hs.cpr = true
    · rw [turn_over htoken hcpr] at h
      exact nomatch h
    · rw [turn_run htoken (Bool.eq_false_iff.mpr hcpr)] at h
      rw [← (Turn.go.inj h).2.1]
      exact run_length_pos hne

/-- The loop has turns enough where it may take one for every byte. -/
theorem loop_enough {n m : ℕ} (hn : rest.length ≤ n) (hm : rest.length ≤ m) :
    hs.loop n rest = hs.loop m rest := by
  induction n generalizing hs rest m with
  | zero =>
    have hnil : rest = [] := length_eq_zero_iff.mp (by omega)
    cases m with
    | zero => rfl
    | succ m => rw [Handshake.loop, Handshake.loop, if_pos (.inr hnil)]
  | succ n ih =>
    cases m with
    | zero =>
      have hnil : rest = [] := length_eq_zero_iff.mp (by omega)
      rw [Handshake.loop, Handshake.loop, if_pos (.inr hnil)]
    | succ m =>
      rw [Handshake.loop, Handshake.loop]
      by_cases hend : hs.over ∨ rest = []
      · rw [if_pos hend, if_pos hend]
      · rw [if_neg hend, if_neg hend]
        cases hturn : hs.turn rest with
        | stop hs' output => rfl
        | go hs' len output reply =>
          have hpos := pos_of_turn (fun hnil => hend (.inr hnil)) hturn
          have hdrop : (rest.drop len).length ≤ rest.length - 1 := by
            rw [length_drop]
            omega
          have hnext := @ih hs' (rest.drop len) m (by omega) (by omega)
          dsimp only
          rw [hnext]

theorem read_over (h : hs.over = true) (rest : Bytes) : hs.read rest = (hs, rest, []) := by
  rw [Handshake.read]
  cases rest with
  | nil => rfl
  | cons x rest => rw [length_cons, Handshake.loop, if_pos (.inl h)]

theorem read_nil (hs : Handshake) : hs.read [] = (hs, [], []) := rfl

theorem read_of_stop (hover : hs.over = false) (hne : rest ≠ [])
    (h : hs.turn rest = .stop hs' output) : hs.read rest = (hs', output, []) := by
  have hend : ¬(hs.over ∨ rest = []) := by
    rw [hover]
    exact fun h => h.elim nofun hne
  have hlen : rest.length = rest.length - 1 + 1 := by
    have hpos := length_pos_iff.mpr hne
    omega
  rw [Handshake.read, hlen, Handshake.loop, if_neg hend, h]

theorem read_of_go (hover : hs.over = false) (hne : rest ≠ [])
    (h : hs.turn rest = .go hs' len output reply) :
    hs.read rest = behind output reply (hs'.read (rest.drop len)) := by
  have hend : ¬(hs.over ∨ rest = []) := by
    rw [hover]
    exact fun h => h.elim nofun hne
  have hpos := length_pos_iff.mpr hne
  have hlen : rest.length = rest.length - 1 + 1 := by omega
  have hdrop : (rest.drop len).length ≤ rest.length - 1 := by
    have htaken := pos_of_turn hne h
    rw [length_drop]
    omega
  rw [Handshake.read, hlen, Handshake.loop, if_neg hend, h]
  dsimp only
  rw [loop_enough hdrop (Nat.le_refl _)]
  rfl

theorem scan_eq (hover : hs.over = false) (chunk : Bytes) :
    hs.scan chunk = { hs with held := [] }.read (hs.held ++ chunk) := by
  rw [Handshake.scan, if_neg (by rw [hover]; nofun)]
  rfl

theorem scan_over (hover : hs.over = true) (chunk : Bytes) : hs.scan chunk = (hs, chunk, []) := by
  rw [Handshake.scan, if_pos hover]

end

/-! ## Two chunks -/

/-- The same is shown and replied, and what is left behind goes on the same. -/
structure Alike (x y : Handshake × Bytes × Bytes) : Prop where
  told : x.2 = y.2
  held : x.1.held = y.1.held
  state : x.1 = y.1 ∨ x.1.over = true ∧ y.1.over = true

section
variable {hs : Handshake} {a b : Bytes} {x y z : Handshake × Bytes × Bytes}

theorem Alike.of_eq (h : x = y) : Alike x y := by
  rw [h]
  exact ⟨rfl, rfl, .inl rfl⟩

theorem Alike.over_eq (h : Alike x y) : x.1.over = y.1.over := by
  rcases h.state with hstate | ⟨hx, hy⟩
  · rw [hstate]
  · rw [hx, hy]

theorem Alike.trans (h : Alike x y) (h' : Alike y z) : Alike x z := by
  refine ⟨h.told.trans h'.told, h.held.trans h'.held, ?_⟩
  rcases h.state with hstate | ⟨hx, hy⟩
  · rw [hstate]
    exact h'.state
  · exact .inr ⟨hx, h'.over_eq.symm.trans hy⟩

theorem Alike.behind (h : Alike x y) (output reply : Bytes) :
    Alike (behind output reply x) (behind output reply y) := by
  refine ⟨?_, h.held, h.state⟩
  dsimp only [ConPty.behind]
  rw [h.told]

/-- A chunk that follows comes to the same. -/
theorem Alike.scan (h : Alike x y) (chunk : Bytes) :
    Alike (ConPty.behind x.2.1 x.2.2 (x.1.scan chunk))
      (ConPty.behind y.2.1 y.2.2 (y.1.scan chunk)) := by
  rw [h.told]
  rcases h.state with hstate | ⟨hx, hy⟩
  · rw [hstate]
    exact .of_eq rfl
  · rw [scan_over hx, scan_over hy]
    exact ⟨rfl, h.held, .inr ⟨hx, hy⟩⟩

/-- A run that goes on into the next chunk: its first part is taken alone, with as much of
it counted as the whole would count. -/
theorem alike_run (hover : hs.over = false) (hheld : hs.held = []) (ha : a ≠ [])
    (hjoined : token (a ++ b) = .other) (hcpr : hs.cpr = false)
    (hesc : ESC ∉ a.tail) :
    Alike (hs.read (a ++ b)) (behind a [] ((hs.take a.length).scan b)) := by
  have hab : a ++ b ≠ [] := fun h => ha (append_eq_nil_iff.mp h).1
  have hlen := @run_length_append a b ha hesc
  have hheld' : (hs.take a.length).held = [] := hheld
  have hread := read_of_go hover hab (turn_run hjoined hcpr)
  rw [hlen, take_length_add_append, drop_length_add_append] at hread
  rw [hread]
  by_cases hended : (hs.take a.length).over = true
  -- the window ends in the first part, and so it does in the whole
  · have hended' : (hs.take (a.length + ((b.findIdx? fun b => b = ESC).getD b.length))).over
        = true := by
      dsimp only [Handshake.take] at hended ⊢
      rw [hcpr] at hended ⊢
      simp only [Bool.false_and, Bool.not_false, Bool.true_and, Bool.false_or,
        decide_eq_true_eq] at hended ⊢
      omega
    rw [scan_over hended, read_over hended']
    refine ⟨?_, rfl, .inr ⟨hended', hended⟩⟩
    dsimp only [behind]
    rw [append_assoc, take_append_drop]
  · have hgoes := Bool.eq_false_iff.mpr hended
    have hkept : { hs.take a.length with held := [] } = hs.take a.length := by
      rw [← hheld']
    rw [scan_eq hgoes, hheld', nil_append, hkept]
    apply Alike.of_eq
    cases b with
    | nil =>
      rw [findIdx?_nil, Option.getD_none, length_nil, Nat.add_zero, take_nil,
        drop_nil, append_nil]
    | cons first rest =>
      by_cases hfirst : first = ESC
      -- the next chunk begins with a sequence, and the run ended before it
      · rw [findIdx?_cons, if_pos (decide_eq_true hfirst), Option.getD_some, Nat.add_zero,
          take_zero, drop_zero, append_nil]
      · have hnext : token (first :: rest) = .other := by
          cases rest with
          | nil => rw [token, if_pos hfirst]
          | cons second rest => rw [token, if_pos hfirst]
        have hlength : ((first :: rest).findIdx? fun b => b = ESC).getD (first :: rest).length
            = run_length (first :: rest) := by
          rw [findIdx?_cons, if_neg (by simpa using hfirst), run_length, tail_cons]
          cases rest.findIdx? fun b => b = ESC with
          | none => rfl
          | some p => rfl
        have htake : (hs.take a.length).take (run_length (first :: rest))
            = hs.take (a.length + run_length (first :: rest)) := by
          dsimp only [Handshake.take]
          rw [Nat.add_assoc]
        have hrun := read_of_go hgoes (cons_ne_nil first rest) (turn_run hnext hcpr)
        rw [htake] at hrun
        rw [hlength, hrun]
        dsimp only [behind]
        rw [append_assoc, nil_append, nil_append]

/-- Reading a stream is reading what it begins with, and then the rest as the next chunk. -/
theorem read_append (hheld : hs.held = [])
    (hshort : ∀ seq, seq <:+: a ++ b → Csi seq → seq.length ≤ HELD_CAP) :
    Alike (hs.read (a ++ b))
      (behind (hs.read a).2.1 (hs.read a).2.2 ((hs.read a).1.scan b)) := by
  induction hn : a.length using Nat.strongRecOn generalizing hs a with
  | _ n ih =>
  by_cases hover : hs.over = true
  · rw [read_over hover, read_over hover, scan_over hover]
    exact .of_eq rfl
  have hgoes := Bool.eq_false_iff.mpr hover
  have hkept : { hs with held := [] } = hs := by rw [← hheld]
  by_cases ha : a = []
  · rw [ha, read_nil, scan_eq hgoes, hheld, hkept]
    exact .of_eq rfl
  have hab : a ++ b ≠ [] := fun h => ha (append_eq_nil_iff.mp h).1
  have hshort' : ∀ seq, seq <+: a ++ b → Csi seq → seq.length ≤ HELD_CAP :=
    fun seq hseq => hshort seq hseq.isInfix
  -- a turn that is the same with `b` behind it leaves the rest of `a` with `b` behind it
  have hgo : ∀ {hs' len output reply}, hs.turn a = .go hs' len output reply →
      hs.turn (a ++ b) = .go hs' len output reply → len ≤ a.length → hs'.held = [] →
      Alike (hs.read (a ++ b))
        (behind (hs.read a).2.1 (hs.read a).2.2 ((hs.read a).1.scan b)) := by
    intro hs' len output reply hturn hturn' hlen hheld'
    have hpos := pos_of_turn ha hturn
    have hdrop : (a ++ b).drop len = a.drop len ++ b := drop_append_of_le_length hlen
    have hrest : ∀ seq, seq <:+: a.drop len ++ b → Csi seq → seq.length ≤ HELD_CAP := by
      intro seq hseq
      rw [← hdrop] at hseq
      exact hshort seq (hseq.trans (drop_suffix _ _).isInfix)
    have hless : (a.drop len).length < n := by
      have hlong := length_pos_iff.mpr ha
      rw [length_drop]
      omega
    have hnext := ih _ hless hheld' hrest rfl
    rw [read_of_go hgoes ha hturn, read_of_go hgoes hab hturn', hdrop]
    refine (hnext.behind output reply).trans (.of_eq ?_)
    dsimp only [behind]
    rw [append_assoc, append_assoc]
  cases htoken : token a with
  | csi len =>
    obtain ⟨-, hlen, -⟩ := csi_of_token htoken
    obtain ⟨hs', output, reply, hturn, hheld'⟩ := @turn_csi hs a len htoken
    refine hgo hturn ?_ hlen (hheld'.trans hheld)
    have htake : (a ++ b).take len = a.take len := take_append_of_le_length hlen
    rw [← hturn, Handshake.turn, Handshake.turn, htoken, token_append_csi htoken]
    dsimp only
    rw [htake]
  | partial_sequence =>
    -- what is held is read again with `b` behind it
    have hhold : hs.read a = ({ hs with held := a }, [], []) :=
      read_of_stop hgoes ha (turn_held htoken)
    have hagain : { hs with held := a }.scan b = hs.read (a ++ b) := by
      have hholds : { hs with held := a }.over = false := hgoes
      rw [scan_eq hholds]
      dsimp only
      rw [hkept]
    rw [hhold]
    dsimp only
    rw [hagain]
    exact .of_eq rfl
  | other =>
    have hjoined := token_append_other ha htoken hshort'
    by_cases hcpr : hs.cpr = true
    · rw [read_of_stop hgoes ha (turn_over htoken hcpr),
        read_of_stop hgoes hab (turn_over hjoined hcpr), scan_over rfl]
      exact .of_eq rfl
    have hasked := Bool.eq_false_iff.mpr hcpr
    by_cases hesc : ESC ∈ a.tail
    · obtain ⟨hlen, hle⟩ := @run_length_of_esc_mem a b ha hesc
      refine hgo (turn_run htoken hasked) ?_ hle hheld
      rw [turn_run hjoined hasked, hlen, take_append_of_le_length hle]
    · have hrun := read_of_go hgoes ha (turn_run htoken hasked)
      rw [run_length_eq hesc, take_length, drop_length, read_nil] at hrun
      have hparts := alike_run hgoes hheld ha hjoined hasked hesc
      rw [hrun]
      dsimp only [behind]
      rw [append_nil]
      exact hparts

end

/-! ## What is answered -/

/-- A stream, and what is left of it without the requests that are answered: at most one for
the cursor and one for the device, where `cpr` and `da1` tell which were answered before. -/
inductive Answered : Bool → Bool → Bytes → Bytes → Bytes → Prop
  | rest {cpr da1 : Bool} (stream : Bytes) : Answered cpr da1 stream stream []
  | shown {cpr da1 : Bool} {stream kept reply : Bytes} (bytes : Bytes)
    (h : Answered cpr da1 stream kept reply) :
    Answered cpr da1 (bytes ++ stream) (bytes ++ kept) reply
  | cursor {da1 : Bool} {stream kept reply : Bytes} (h : Answered true da1 stream kept reply) :
    Answered false da1 (CPR_REQUEST ++ stream) kept (CPR_REPLY ++ reply)
  | device {cpr : Bool} {stream kept reply request : Bytes} (hrequest : request ∈ DA1_REQUESTS)
    (h : Answered cpr true stream kept reply) :
    Answered cpr false (request ++ stream) kept (DA1_REPLY ++ reply)

section
variable {hs hs' : Handshake} {rest output reply : Bytes} {len : ℕ}

/-- What a turn takes is shown, or a request that it answers. -/
theorem answered_turn (hturn : hs.turn rest = .go hs' len output reply) {stream kept more : Bytes}
    (h : Answered hs'.cpr hs'.da1 stream kept more) :
    Answered hs.cpr hs.da1 (rest.take len ++ stream) (output ++ kept) (reply ++ more) := by
  cases htoken : token rest with
  | partial_sequence =>
    rw [turn_held htoken] at hturn
    exact nomatch hturn
  | other =>
    by_cases hcpr : hs.cpr = true
    · rw [turn_over htoken hcpr] at hturn
      exact nomatch hturn
    · rw [turn_run htoken (Bool.eq_false_iff.mpr hcpr)] at hturn
      cases hturn
      exact .shown _ h
  | csi n =>
    rw [Handshake.turn, htoken] at hturn
    dsimp only at hturn
    by_cases hcursor : (!hs.cpr) = true ∧ rest.take n = CPR_REQUEST
    · rw [if_pos hcursor] at hturn
      cases hturn
      have hcpr : hs.cpr = false := by simpa using hcursor.1
      rw [hcursor.2, hcpr]
      exact .cursor h
    rw [if_neg hcursor] at hturn
    by_cases hdevice : (!hs.da1) = true ∧ rest.take n ∈ DA1_REQUESTS
    · rw [if_pos hdevice] at hturn
      cases hturn
      have hda1 : hs.da1 = false := by simpa using hdevice.1
      rw [hda1]
      exact .device hdevice.2 h
    · rw [if_neg hdevice] at hturn
      cases hturn
      exact .shown _ h

theorem held_of_turn (hturn : hs.turn rest = .go hs' len output reply) : hs'.held = hs.held := by
  cases htoken : token rest with
  | partial_sequence =>
    rw [turn_held htoken] at hturn
    exact nomatch hturn
  | other =>
    by_cases hcpr : hs.cpr = true
    · rw [turn_over htoken hcpr] at hturn
      exact nomatch hturn
    · rw [turn_run htoken (Bool.eq_false_iff.mpr hcpr)] at hturn
      rw [← (Turn.go.inj hturn).1]
      rfl
  | csi n =>
    obtain ⟨_, _, _, hgo, hheld⟩ := @turn_csi hs rest n htoken
    rw [hgo] at hturn
    rw [← (Turn.go.inj hturn).1]
    exact hheld

/-- The loop shows what it does not answer, with what it holds behind it. -/
theorem loop_answered (hheld : hs.held = []) (turns : ℕ) : Answered hs.cpr hs.da1 rest
    ((hs.loop turns rest).2.1 ++ (hs.loop turns rest).1.held) (hs.loop turns rest).2.2 := by
  induction turns generalizing hs rest with
  | zero =>
    rw [Handshake.loop, hheld, append_nil]
    exact .rest rest
  | succ turns ih =>
    rw [Handshake.loop]
    by_cases hend : hs.over = true ∨ rest = []
    · rw [if_pos hend, hheld, append_nil]
      exact .rest rest
    rw [if_neg hend]
    cases hturn : hs.turn rest with
    | go hs' len output reply =>
      have hnext := answered_turn hturn (@ih hs' (rest.drop len) ((held_of_turn hturn).trans hheld))
      rw [take_append_drop, ← append_assoc] at hnext
      exact hnext
    -- the loop stops on a part of a sequence, or when nothing is left to ask
    | stop hs' output =>
      have hkept : output ++ hs'.held = rest := by
        cases htoken : token rest with
        | csi n =>
          obtain ⟨_, _, _, hgo, -⟩ := @turn_csi hs rest n htoken
          rw [hgo] at hturn
          exact nomatch hturn
        | partial_sequence =>
          rw [turn_held htoken] at hturn
          cases hturn
          rfl
        | other =>
          by_cases hcpr : hs.cpr = true
          · rw [turn_over htoken hcpr] at hturn
            cases hturn
            dsimp only
            rw [hheld, append_nil]
          · rw [turn_run htoken (Bool.eq_false_iff.mpr hcpr)] at hturn
            exact nomatch hturn
      dsimp only
      rw [hkept]
      exact .rest rest

end

/-! ## Any chunks -/

section
variable {chunks more : List Bytes}

theorem feed_append_singleton (chunks : List Bytes) (chunk : Bytes) :
    feed (chunks ++ [chunk])
      = behind (feed chunks).2.1 (feed chunks).2.2 ((feed chunks).1.scan chunk) := by
  rw [feed, foldl_append, foldl_cons, foldl_nil]
  rfl

theorem feed_singleton (stream : Bytes) : feed [stream] = Handshake.default.read stream := rfl

/-- The chunks come to what reading their bytes at once does. -/
theorem feed_alike (hshort : ∀ seq, seq <:+: chunks.flatten → Csi seq → seq.length ≤ HELD_CAP) :
    Alike (Handshake.default.read chunks.flatten) (feed chunks) := by
  induction chunks using List.reverseRecOn with
  | nil => exact .of_eq rfl
  | append_singleton chunks chunk ih =>
    rw [flatten_append, flatten_singleton] at hshort ⊢
    have hbefore := ih fun seq hseq =>
      hshort seq (hseq.trans (prefix_append _ _).isInfix)
    rw [feed_append_singleton]
    exact (read_append rfl hshort).trans (hbefore.scan chunk)

/-- Behind the end of the handshake every chunk is handed on. -/
theorem feed_over (h : (feed chunks).1.over = true) (more : List Bytes) :
    feed (chunks ++ more)
      = ((feed chunks).1, (feed chunks).2.1 ++ more.flatten, (feed chunks).2.2) := by
  induction more using List.reverseRecOn with
  | nil =>
    rw [append_nil, flatten_nil, append_nil]
  | append_singleton more chunk ih =>
    rw [← append_assoc, feed_append_singleton, ih, scan_over h]
    dsimp only [behind]
    rw [flatten_append, flatten_singleton, append_assoc, append_nil]

/-- However the stream is cut, the same is replied and the same is shown or held: the stream
without the requests that were answered, and all of it once the handshake is over. -/
theorem handshake_any_chunks
    (hshort : ∀ seq, seq <:+: chunks.flatten → Csi seq → seq.length ≤ HELD_CAP) :
    (feed chunks).2.2 = (feed [chunks.flatten]).2.2
      ∧ (feed chunks).2.1 ++ (feed chunks).1.held
        = (feed [chunks.flatten]).2.1 ++ (feed [chunks.flatten]).1.held
      ∧ Answered false false chunks.flatten ((feed chunks).2.1 ++ (feed chunks).1.held)
        (feed chunks).2.2
      ∧ ((feed chunks).1.over = true → ∀ more, feed (chunks ++ more)
        = ((feed chunks).1, (feed chunks).2.1 ++ more.flatten, (feed chunks).2.2)) := by
  have halike := feed_alike hshort
  have hanswered := @loop_answered Handshake.default chunks.flatten rfl chunks.flatten.length
  rw [← Handshake.read, halike.told, halike.held] at hanswered
  rw [feed_singleton, halike.told, halike.held]
  exact ⟨rfl, rfl, hanswered, feed_over⟩

/-- A request that is cut in its middle. -/
def cut_request : List Bytes := [[0x1b, 0x5b], [0x36, 0x6e, 0x24]]

theorem handshake_any_chunks_cut :
    (feed cut_request).2.2 = (feed [cut_request.flatten]).2.2
      ∧ Answered false false cut_request.flatten [0x24] CPR_REPLY := by
  have hshort : ∀ seq, seq <:+: cut_request.flatten → Csi seq → seq.length ≤ HELD_CAP := by
    intro seq hseq _
    exact Nat.le_trans hseq.length_le (by decide)
  obtain ⟨hreply, -, hanswered, -⟩ := handshake_any_chunks hshort
  have hkept : (feed cut_request).2.1 ++ (feed cut_request).1.held = [0x24] := by decide +kernel
  have hreplied : (feed cut_request).2.2 = CPR_REPLY := by decide +kernel
  rw [hkept, hreplied] at hanswered
  exact ⟨hreply, hanswered⟩

end

end Lpm.ConPty
