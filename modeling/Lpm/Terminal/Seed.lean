/-
What a seed replays: `Ring::seed` of `ptyring.rs`, over every history of a ring.

A seed is a prelude and a tail. The tail is cut where the ring overflowed, at the seed
cap or at the floor, and the prelude has to make up for everything in front of the cut.
Where the tail holds a newline the text begins behind one. Where it holds none, the
bytes left of a character the cut went through are replayed as U+FFFD.
-/
import Lpm.Terminal.Ring

set_option autoImplicit false

open RustText Utf8

namespace Lpm.Terminal

open List

/-! ## The history of a ring -/

/-- What happens to a ring: a chunk is pushed, or a gap retires what it holds. -/
inductive Recorded where
  | chunk (text : Str)
  | gap

def Ring.record (r : Ring) : Recorded → Ring
  | .chunk text => (r.push text).1
  | .gap => r.invalidate

def Ring.record_all (r : Ring) (events : List Recorded) : Ring := events.foldl Ring.record r

def Recorded.text : Recorded → Str
  | .chunk text => text
  | .gap => []

/-- Everything that was emitted. -/
def spoken (events : List Recorded) : Str := events.flatMap Recorded.text

variable (r : Ring)

theorem Ring.record_all_append (a b : List Recorded) :
    r.record_all (a ++ b) = (r.record_all a).record_all b :=
  foldl_append

theorem Ring.record_all_singleton (e : Recorded) : r.record_all [e] = r.record e := rfl

variable (events : List Recorded)

theorem Ring.record_all_concat (e : Recorded) :
    r.record_all (events ++ [e]) = (r.record_all events).record e :=
  foldl_append

theorem spoken_append (a b : List Recorded) : spoken (a ++ b) = spoken a ++ spoken b :=
  flatMap_append

variable (text : Str)

theorem spoken_concat_chunk :
    spoken (events ++ [.chunk text]) = spoken events ++ text := by
  rw [spoken_append, spoken, spoken, flatMap_singleton]
  rfl

theorem Ring.push_modes :
    (r.push text).1.modes = r.modes.feed (as_bytes text) := by
  unfold Ring.push
  simp only
  split_ifs <;> rfl

/-- The tracker of a ring has seen the whole stream. -/
theorem modes_record_all :
    (Ring.record_all {} events).modes = Modes.feed {} (as_bytes (spoken events)) := by
  induction events using List.reverseRecOn with
  | nil => rfl
  | append_singleton events e ih =>
    rw [Ring.record_all_concat]
    cases e with
    | chunk text =>
      rw [spoken_concat_chunk, as_bytes_append, Modes.feed_append, ← ih, Ring.record,
        Ring.push_modes]
    | gap =>
      rw [spoken_append, show spoken [Recorded.gap] = [] from rfl, append_nil, ← ih,
        Ring.record, Ring.invalidate]

/-! ## What is held -/

/-- A ring holds the last bytes of the text recorded since its last gap, which began at
offset `b`; bytes are missing in front exactly when it is truncated. -/
def Holds (r : Ring) (text : Str) (b : ℕ) : Prop :=
  ∃ n ≤ (as_bytes text).length, r.buf = (as_bytes text).drop n ∧ r.base = b + n
    ∧ (r.truncated = true ↔ 0 < n)

theorem Holds.empty : Holds {} [] 0 :=
  ⟨0, le_rfl, rfl, rfl, by simp⟩

theorem Holds.invalidate : Holds r.invalidate [] (r.total + 1) :=
  ⟨0, le_rfl, rfl, rfl, by simp [Ring.invalidate]⟩

theorem Holds.total {r : Ring} {text : Str} {b : ℕ} (h : Holds r text b) :
    r.total = b + (as_bytes text).length := by
  obtain ⟨n, hn, hbuf, hbase, -⟩ := h
  rw [Ring.total, hbuf, hbase, length_drop]
  omega

theorem Ring.push_truncated :
    (r.push text).1.truncated
      = (r.truncated || decide ((r.buf ++ as_bytes text).length - RING_CAP > 0)) := by
  unfold Ring.push
  simp only
  by_cases hover : (r.buf ++ as_bytes text).length - RING_CAP > 0
  · rw [if_pos hover, decide_eq_true hover, Bool.or_true]
  · rw [if_neg hover, decide_eq_false hover, Bool.or_false]

theorem Holds.push {r : Ring} {text : Str} {b : ℕ} (h : Holds r text b) (chunk : Str) :
    Holds (r.push chunk).1 (text ++ chunk) b := by
  obtain ⟨n, hn, hbuf, hbase, htruncated⟩ := h
  have happend : r.buf ++ as_bytes chunk = (as_bytes (text ++ chunk)).drop n := by
    rw [hbuf, as_bytes_append, drop_append_of_le_length hn]
  have hlen : (r.buf ++ as_bytes chunk).length = (as_bytes (text ++ chunk)).length - n := by
    rw [happend, length_drop]
  have hle : n ≤ (as_bytes (text ++ chunk)).length := by
    rw [as_bytes_append, length_append]
    omega
  refine ⟨n + ((r.buf ++ as_bytes chunk).length - RING_CAP), by omega, ?_, ?_, ?_⟩
  · rw [Ring.push_buf, happend, drop_drop]
  · rw [Ring.push_base, hbase, Nat.add_assoc]
  · rw [Ring.push_truncated, Bool.or_eq_true, htruncated, decide_eq_true_eq]
    omega

theorem Ring.total_le_record (e : Recorded) : r.total ≤ (r.record e).total := by
  cases e with
  | chunk text =>
    rw [Ring.record, Ring.push_total]
    exact Nat.le_add_right _ _
  | gap => exact (Nat.le_succ _).trans (Nat.le_add_right _ _)

theorem Ring.total_le_record_all :
    r.total ≤ (r.record_all events).total := by
  induction events generalizing r with
  | nil => exact le_rfl
  | cons e events ih => exact (r.total_le_record e).trans (ih _)

/-- The events behind the last gap, when there is one. -/
def BehindGap (events recent : List Recorded) : Prop :=
  ∃ earlier, events = earlier ++ .gap :: recent ∧ Recorded.gap ∉ recent

/-- What a ring holds after a history: what it held and more, or only what came behind
the last gap, at offsets past every one from before. -/
theorem Holds.record_all {r : Ring} {text : Str} {b : ℕ} (h : Holds r text b)
    (events : List Recorded) :
    (Recorded.gap ∉ events ∧ Holds (r.record_all events) (text ++ spoken events) b)
      ∨ ∃ recent b', BehindGap events recent ∧ r.total < b'
          ∧ Holds (r.record_all events) (spoken recent) b' := by
  induction events using List.reverseRecOn with
  | nil =>
    left
    refine ⟨by simp, ?_⟩
    rw [spoken, flatMap_nil, append_nil]
    exact h
  | append_singleton events e ih =>
    rw [Ring.record_all_concat]
    cases e with
    | gap =>
      right
      refine ⟨[], _, ⟨events, rfl, by simp⟩, ?_, Holds.invalidate _⟩
      exact Nat.lt_succ_of_le (r.total_le_record_all events)
    | chunk chunk =>
      rcases ih with ⟨hno, hholds⟩ | ⟨recent, b', ⟨earlier, hevents, hno⟩, hb, hholds⟩
      · left
        refine ⟨by simp [hno], ?_⟩
        rw [spoken_concat_chunk, ← append_assoc]
        exact hholds.push chunk
      · right
        refine ⟨recent ++ [.chunk chunk], b', ⟨earlier, ?_, by simp [hno]⟩, hb, ?_⟩
        · rw [hevents, append_assoc, cons_append]
        · rw [spoken_concat_chunk]
          exact hholds.push chunk

/-! ## Where the tail begins -/

variable (before after : List Recorded)

/-- The bytes a seed is made from, for a floor that was the total before `after`: the
text emitted since the floor, or since the last gap behind it, without some bytes in
front; and without any missing unless the cut counts as part-way through a line. -/
theorem kept_tail_eq :
    let floor := (Ring.record_all {} before).total
    let r := Ring.record_all {} (before ++ after)
    ∃ pre text k, spoken after = pre ++ text
      ∧ r.kept_tail floor = (as_bytes text).drop k
      ∧ ((r.cut floor).2 = false → k = 0 ∧ (pre = [] ∨ ∃ recent, BehindGap after recent
          ∧ text = spoken recent)) := by
  intro floor r
  have hstart : ∃ text₀ b₀, Holds (Ring.record_all {} before) text₀ b₀ := by
    rcases Holds.empty.record_all before with ⟨-, h⟩ | ⟨recent, b', -, -, h⟩
    · exact ⟨_, _, h⟩
    · exact ⟨_, _, h⟩
  obtain ⟨text₀, b₀, h₀⟩ := hstart
  have hfloor : floor = b₀ + (as_bytes text₀).length := h₀.total
  have hr : r = (Ring.record_all {} before).record_all after := Ring.record_all_append _ _ _
  rcases h₀.record_all after with ⟨-, hholds⟩ | ⟨recent, b', hgap, hb, hholds⟩
  -- no gap: the floor lies in the text the ring holds the end of
  · rw [← hr] at hholds
    obtain ⟨n, hn, hbuf, hbase, htruncated⟩ := hholds
    rw [as_bytes_append, length_append] at hn
    have hlen : r.buf.length = (as_bytes text₀).length + (as_bytes (spoken after)).length - n := by
      rw [hbuf, length_drop, as_bytes_append, length_append]
    refine ⟨[], spoken after, n + (r.cut floor).1 - (as_bytes text₀).length, rfl, ?_, ?_⟩
    · have hge : (as_bytes text₀).length ≤ n + (r.cut floor).1 := by
        unfold Ring.cut
        simp only
        omega
      rw [Ring.kept_tail, hbuf, drop_drop, as_bytes_append, drop_append,
        drop_eq_nil_of_le hge, nil_append]
    · intro hpartial
      refine ⟨?_, .inl rfl⟩
      unfold Ring.cut at hpartial ⊢
      simp only [Bool.or_eq_false_iff, decide_eq_false_iff_not, Bool.and_eq_false_iff,
        beq_eq_false_iff_ne] at hpartial ⊢
      rw [← Bool.not_eq_true, htruncated] at hpartial
      omega
  -- a gap: everything held came behind it, and the floor is in front
  · rw [← hr] at hholds
    obtain ⟨n, hn, hbuf, hbase, htruncated⟩ := hholds
    have hbehind := hgap
    obtain ⟨earlier, hafter, -⟩ := hgap
    refine ⟨spoken earlier, spoken recent, n + (r.cut floor).1, ?_, ?_, ?_⟩
    · rw [hafter, spoken_append]
      rfl
    · rw [Ring.kept_tail, hbuf, drop_drop]
    · intro hpartial
      refine ⟨?_, .inr ⟨recent, hbehind, rfl⟩⟩
      unfold Ring.cut at hpartial ⊢
      simp only [Bool.or_eq_false_iff, decide_eq_false_iff_not, Bool.and_eq_false_iff,
        beq_eq_false_iff_ne] at hpartial ⊢
      rw [← Bool.not_eq_true, htruncated] at hpartial
      omega

/-- No byte left of a cut character is a newline. -/
theorem no_newline_cut {gone : Str} {cut : List UInt8} (h : LeftOver gone cut) :
    0x0A ∉ cut := by
  intro hmem
  exact absurd (h.is_cont _ hmem) (by decide)

theorem whole_lines_false (s : Str) : whole_lines s false = s := rfl

theorem whole_lines_none {s : Str} (h : split_once '\n' s = none) (mid_line : Bool) :
    whole_lines s mid_line = s := by
  unfold whole_lines
  rw [h]
  cases mid_line <;> rfl

theorem whole_lines_some {s line rest : Str} (h : split_once '\n' s = some (line, rest)) :
    whole_lines s true = rest := by
  unfold whole_lines
  rw [h]

/-- The tail of a seed made from a text without some bytes in front: it starts at the
text's start, behind a newline, or in a tail with no newline after the bytes left of a
cut character. -/
theorem tail_cases {r : Ring} {floor : ℕ} {text : Str} {k : ℕ}
    (hkept : r.kept_tail floor = (as_bytes text).drop k)
    (hwhole : (r.cut floor).2 = false → k = 0) :
    ∃ cut dropped rest, text = dropped ++ rest
      ∧ r.tail floor = List.replicate cut.length REPLACEMENT_CHARACTER ++ rest
      ∧ (cut = [] ∧ (dropped = [] ∧ (r.cut floor).2 = false ∨ ∃ line, dropped = line ++ ['\n'])
        ∨ 0x0A ∉ r.kept_tail floor ∧ r.kept_tail floor = cut ++ as_bytes rest
          ∧ LeftOver dropped cut) := by
  obtain ⟨gone, cut, kept, htext, hdrop, hleft, hlossy⟩ := lossy_drop_as_bytes text k
  by_cases hpartial : (r.cut floor).2 = false
  -- the whole text is replayed
  · refine ⟨[], [], text, rfl, ?_, .inl ⟨rfl, .inl ⟨rfl, hpartial⟩⟩⟩
    rw [Ring.tail, hpartial, whole_lines_false, hkept, hwhole hpartial, drop_zero,
      lossy_as_bytes, length_nil, replicate_zero, nil_append]
  have htrue : (r.cut floor).2 = true := by simpa using hpartial
  rcases hfind : split_once '\n' (List.replicate cut.length REPLACEMENT_CHARACTER ++ kept) with _ | ⟨a, rest⟩
  · have hno := split_once_eq_none hfind
    refine ⟨cut, gone, kept, htext, ?_, .inr ⟨?_, by rw [hkept, hdrop], hleft⟩⟩
    · rw [Ring.tail, hkept, hlossy]
      exact whole_lines_none hfind _
    · rw [hkept, hdrop, mem_append, not_or]
      refine ⟨no_newline_cut hleft, fun hmem => hno (mem_append_right _ ?_)⟩
      exact ascii_mem_as_bytes (by decide) hmem
  · obtain ⟨hs, hnot⟩ := split_once_eq hfind
    -- the newline stands behind the replaced bytes
    obtain ⟨line, ha, hkeep⟩ : ∃ line, a = List.replicate cut.length REPLACEMENT_CHARACTER ++ line
        ∧ kept = line ++ '\n' :: rest := by
      rcases append_eq_append_iff.mp hs with ⟨line, ha, hkeep⟩ | ⟨line, hmarks, hrest⟩
      · exact ⟨line, ha, hkeep⟩
      · cases line with
        | nil =>
          rw [append_nil] at hmarks
          exact ⟨[], by rw [hmarks, append_nil], hrest.symm⟩
        | cons x line =>
          rw [cons_append, List.cons.injEq] at hrest
          have hx : x ∈ List.replicate cut.length REPLACEMENT_CHARACTER := by
            rw [hmarks]
            exact mem_append_right _ (mem_cons_self ..)
          rw [← hrest.1] at hx
          exact absurd (eq_of_mem_replicate hx) (by decide)
    refine ⟨[], gone ++ line ++ ['\n'], rest, ?_, ?_, .inl ⟨rfl, .inr ⟨_, rfl⟩⟩⟩
    · rw [htext, hkeep]
      simp
    · rw [Ring.tail, hkept, hlossy, htrue, length_nil, replicate_zero, nil_append]
      exact whole_lines_some hfind

/-! ## What a seed restores -/

/-- A fresh tracker reads replaced bytes as nothing. -/
theorem feed_replaced (s : Settings) (n : ℕ) :
    Modes.feed { toSettings := s } (as_bytes (List.replicate n REPLACEMENT_CHARACTER))
      = { toSettings := s } := by
  induction n with
  | zero => rfl
  | succ n ih =>
    rw [replicate_succ, as_bytes_cons, Modes.feed_append]
    have hone : Modes.feed { toSettings := s } (String.utf8EncodeChar REPLACEMENT_CHARACTER)
        = { toSettings := s } := rfl
    rw [hone, ih]

/-- A fresh tracker that reads the prelude of a stream, some replaced bytes and the last
part of the stream has its settings. -/
theorem seed_settings (m : Modes) (hm : Tidy m.toSettings) (n : ℕ) (rest : Str) :
    (Modes.feed {} (as_bytes ((m.feed (as_bytes rest)).prelude
        ++ List.replicate n REPLACEMENT_CHARACTER ++ rest))).toSettings
      = (m.feed (as_bytes rest)).toSettings := by
  have htidy : Tidy (m.feed (as_bytes rest)).toSettings := by
    rw [feed_settings]
    exact hm.apply_all _
  rw [as_bytes_append, as_bytes_append, Modes.feed_append, Modes.feed_append,
    feed_prelude htidy, feed_replaced, ← feed_prelude htidy, ← Modes.feed_append]
  exact feed_prelude_append m hm _

/-- Where the text of a seed may begin, for the events since the floor: at the floor, at
the start of what is held with nothing lost in front of it, or behind a newline. -/
def BeginsWell (after : List Recorded) (dropped rest : Str) : Prop :=
  dropped = [] ∨ (∃ recent, BehindGap after recent ∧ rest = spoken recent)
    ∨ ∃ line, dropped = line ++ ['\n']

/-- The tail of a seed, cut from what was emitted since the floor. -/
theorem seed_tail :
    let floor := (Ring.record_all {} before).total
    let r := Ring.record_all {} (before ++ after)
    ∃ cut dropped rest, spoken after = dropped ++ rest
      ∧ r.tail floor = List.replicate cut.length REPLACEMENT_CHARACTER ++ rest
      ∧ (cut = [] ∧ BeginsWell after dropped rest
        ∨ 0x0A ∉ r.kept_tail floor ∧ r.kept_tail floor = cut ++ as_bytes rest
          ∧ LeftOver dropped cut) := by
  intro floor r
  obtain ⟨pre, text, k, hafter, hkept, hwhole⟩ := kept_tail_eq before after
  obtain ⟨cut, dropped, rest, htext, htail, hcases⟩ :=
    tail_cases hkept fun h => (hwhole h).1
  refine ⟨cut, pre ++ dropped, rest, by rw [hafter, htext, append_assoc], htail, ?_⟩
  rcases hcases with ⟨hcut, hdropped | ⟨line, hline⟩⟩ | ⟨hno, hbytes, hleft⟩
  · left
    refine ⟨hcut, ?_⟩
    rw [hdropped.1, nil_append] at htext
    rcases (hwhole hdropped.2).2 with hpre | ⟨recent, hgap, hrecent⟩
    · exact .inl (by rw [hpre, hdropped.1]; rfl)
    · exact .inr (.inl ⟨recent, hgap, by rw [← htext, hrecent]⟩)
  · exact .inl ⟨hcut, .inr (.inr ⟨pre ++ line, by rw [hline, append_assoc]⟩)⟩
  · refine .inr ⟨hno, hbytes, ?_⟩
    rcases hleft with hnil | ⟨gone, c, first, hgone, henc, hne⟩
    · exact .inl hnil
    · exact .inr ⟨pre ++ gone, c, first, by rw [hgone, append_assoc], henc, hne⟩

/-- For every history of a ring and every floor that was the total at some earlier point.
A fresh tracker that reads the seed writes the prelude of the tracker that saw the whole
stream. The text behind the prelude is the end of what was emitted since the floor, and
begins well; or the tail that was kept holds no newline, all of it is replayed, and the
bytes left of a character that was cut in two come out as U+FFFD in front. -/
theorem seed_restores (before after : List Recorded) :
    let floor := (Ring.record_all {} before).total
    let r := Ring.record_all {} (before ++ after)
    let stream := Modes.feed {} (as_bytes (spoken (before ++ after)))
    (Modes.feed {} (as_bytes (r.seed floor).1)).prelude = stream.prelude
      ∧ ∃ cut dropped rest, spoken after = dropped ++ rest
        ∧ (r.seed floor).1
            = stream.prelude ++ List.replicate cut.length REPLACEMENT_CHARACTER ++ rest
        ∧ (cut = [] ∧ BeginsWell after dropped rest
          ∨ 0x0A ∉ r.kept_tail floor ∧ r.kept_tail floor = cut ++ as_bytes rest
            ∧ LeftOver dropped cut) := by
  intro floor r stream
  obtain ⟨cut, dropped, rest, hafter, htail, hcases⟩ := seed_tail before after
  have hmodes : r.modes = stream := modes_record_all _
  have hseed : (r.seed floor).1
      = stream.prelude ++ List.replicate cut.length REPLACEMENT_CHARACTER ++ rest := by
    rw [Ring.seed, hmodes, htail, append_assoc]
  have hstream : stream
      = (Modes.feed {} (as_bytes (spoken before ++ dropped))).feed (as_bytes rest) := by
    change Modes.feed {} (as_bytes (spoken (before ++ after))) = _
    rw [spoken_append, hafter, ← append_assoc, as_bytes_append, Modes.feed_append]
  refine ⟨?_, cut, dropped, rest, hafter, hseed, hcases⟩
  have htidy : Tidy (Modes.feed {} (as_bytes (spoken before ++ dropped))).toSettings := by
    rw [feed_settings]
    exact tidy_default.apply_all _
  have hsettings := seed_settings _ htidy cut.length rest
  rw [← hstream, ← hseed] at hsettings
  exact congrArg Settings.prelude hsettings

variable (n : ℕ)

/-- A character of two bytes and then a line that does not end. -/
def cut_in_two : Str := 'é' :: List.replicate n 'a'

theorem as_bytes_cut_in_two :
    as_bytes (cut_in_two n) = [0xC3, 0xA9] ++ as_bytes (List.replicate n 'a') := rfl

theorem length_cut_in_two : (as_bytes (cut_in_two n)).length = n + 2 := by
  have hline : (as_bytes (List.replicate n 'a')).length = n := by
    induction n with
    | zero => rfl
    | succ n ih =>
      rw [replicate_succ, as_bytes_cons, length_append, ih]
      exact Nat.add_comm 1 n
  rw [as_bytes_cut_in_two, length_append, hline]
  exact Nat.add_comm 2 n

theorem replaced_not_mem : REPLACEMENT_CHARACTER ∉ cut_in_two n := by
  intro hmem
  rcases mem_cons.mp hmem with he | ha
  · exact absurd he (by decide)
  · exact absurd (eq_of_mem_replicate ha) (by decide)

/-- Cut after its first byte, the character is replaced. -/
theorem tail_cut_in_two {r : Ring} {n : ℕ} (hbuf : r.buf = as_bytes (cut_in_two n))
    (hcut : (r.cut 0).1 = 1) : r.tail 0 = REPLACEMENT_CHARACTER :: List.replicate n 'a' := by
  have hkept : r.kept_tail 0 = 0xA9 :: as_bytes (List.replicate n 'a') := by
    rw [Ring.kept_tail, hcut, hbuf, as_bytes_cut_in_two]
    rfl
  have hlossy : from_utf8_lossy (r.kept_tail 0)
      = REPLACEMENT_CHARACTER :: List.replicate n 'a' := by
    have hcont := @lossy_cont_append [0xA9] (forall_mem_singleton.mpr (by decide)) (as_bytes (List.replicate n 'a'))
    rw [lossy_as_bytes] at hcont
    rw [hkept]
    exact hcont
  rw [Ring.tail, hlossy]
  rcases hfind : split_once '\n' (REPLACEMENT_CHARACTER :: List.replicate n 'a')
    with _ | ⟨line, rest⟩
  · exact whole_lines_none hfind _
  · have hmem : '\n' ∈ REPLACEMENT_CHARACTER :: List.replicate n 'a' := by
      rw [(split_once_eq hfind).1]
      exact mem_append_right _ (mem_cons_self ..)
    rcases mem_cons.mp hmem with hmark | ha
    · exact absurd hmark (by decide)
    · exact absurd (eq_of_mem_replicate ha) (by decide)

/-- A ring that holds all of it and seeds all but the first byte. -/
theorem seed_cut_in_two {n : ℕ} (hfits : n + 2 - RING_CAP = 0) (hover : n + 2 - SEED_CAP = 1) :
    (Ring.record_all {} [.chunk (cut_in_two n)]).tail 0
      = REPLACEMENT_CHARACTER :: List.replicate n 'a' := by
  have hlen := length_cut_in_two n
  have hbuf : (Ring.push {} (cut_in_two n)).1.buf = as_bytes (cut_in_two n) := by
    rw [Ring.push_buf, nil_append, hlen, hfits, drop_zero]
  have hbase : (Ring.push {} (cut_in_two n)).1.base = 0 := by
    rw [Ring.push_base, nil_append, hlen, hfits]
  have hcut : ((Ring.push {} (cut_in_two n)).1.cut 0).1 = 1 := by
    unfold Ring.cut
    simp only
    rw [hbuf, hbase, hlen, hover, Nat.zero_sub, Nat.zero_min]
    rfl
  rw [Ring.record_all_singleton, Ring.record]
  exact tail_cut_in_two hbuf hcut

/-- It does not always replay a part of what was emitted: a chunk one byte over the seed
cap, without a newline, is replayed with U+FFFD in front. -/
theorem seed_not_always_suffix :
    ¬ ∀ before after : List Recorded,
      let floor := (Ring.record_all {} before).total
      let r := Ring.record_all {} (before ++ after)
      let stream := Modes.feed {} (as_bytes (spoken (before ++ after)))
      (Modes.feed {} (as_bytes (r.seed floor).1)).prelude = stream.prelude
        ∧ ∃ dropped rest, spoken after = dropped ++ rest
          ∧ (r.seed floor).1 = stream.prelude ++ rest
          ∧ (0x0A ∈ r.kept_tail floor → BeginsWell after dropped rest) := by
  intro h
  obtain ⟨n, hfits, hover⟩ : ∃ n, n + 2 - RING_CAP = 0 ∧ n + 2 - SEED_CAP = 1 :=
    ⟨SEED_CAP - 1, by decide, by decide⟩
  obtain ⟨-, dropped, rest, hspoken, hseed, -⟩ := h [] [.chunk (cut_in_two n)]
  have hmodes := modes_record_all ([] ++ [.chunk (cut_in_two n)])
  rw [Ring.seed, ← hmodes] at hseed
  have htail : (Ring.record_all {} [.chunk (cut_in_two n)]).tail 0 = rest :=
    append_cancel_left hseed
  rw [seed_cut_in_two hfits hover] at htail
  rw [spoken, flatMap_singleton, Recorded.text] at hspoken
  apply replaced_not_mem n
  rw [hspoken, ← htail]
  exact mem_append_right _ (mem_cons_self ..)

end Lpm.Terminal
