/-
How long a turn took: what an entry's dates come to over any run of reports of one pane
entry, told apart from how `status.rs` carries them.

What the dates should be is read off the reports alone. The live streak the last report is
of began with its first report, and a turn ended with the first of the finished reports of
one value that stand in a row. `carry_turn` has only the entry before it to go by: a start
at the epoch reads as no start, and a finished report that repeats in another look, or on
another pane, has no live entry before it any more.
-/
import Lpm.Status.Store

set_option autoImplicit false

namespace Lpm.Status

open Option

open Transition

/-! ## What the reports say of turns -/

/-- What a turn is dated by. -/
structure Said where
  value : String
  time : ℤ

variable (e : StatusEntry)

def StatusEntry.said : Said := ⟨e.value, e.timestamp⟩

@[simp] theorem StatusEntry.said_value : e.said.value = e.value := rfl

/-- A state that ends a turn. -/
def is_finished (value : String) : Bool := value = STATUS_DONE || value = STATUS_ERROR

variable (reports : List Said)

/-- What was said last. The reports are in a list with the latest in front. -/
def said_last : Option String := reports.head?.map Said.value

/-- When the unbroken live streak began that the last report is of. -/
def live_since : List Said → Option ℤ
  | [] => none
  | r :: earlier =>
    if is_live r.value then some ((live_since earlier).getD r.time) else none

/-- When the turn ended whose end is what the last report says: a report that repeats what
was said does not end it again. -/
def ended_since : List Said → Option ℤ
  | [] => none
  | r :: earlier =>
    if is_finished r.value then
      some (if said_last earlier = some r.value then (ended_since earlier).getD r.time else r.time)
    else none

/-- When the turn began whose end is what the last report says. -/
def ended_turn_since : List Said → Option ℤ
  | [] => none
  | r :: earlier =>
    if is_finished r.value then
      if said_last earlier = some r.value then ended_turn_since earlier else live_since earlier
    else none

/-- How long the turn has run: up to its end once it ended, up to `now` while it goes on. -/
def StatusEntry.turn_elapsed_ms (now : ℤ) : Option ℕ :=
  if e.turn_start ≤ 0 then none
  else
    let ended := if e.ended_at > 0 then e.ended_at else now
    if 0 ≤ ended - e.turn_start then some (ended - e.turn_start).toNat else none

/-- The dates of an entry are those of its turn. A turn whose start was never seen has none. -/
structure Dated (reports : List Said) (e : StatusEntry) : Prop where
  live : is_live e.value → e.ended_at = 0 ∧ live_since reports = some e.turn_start
  finished : is_finished e.value → e.turn_start ≤ e.ended_at
    ∧ ended_since reports = some e.ended_at
    ∧ (e.turn_start = 0 ∨ ended_turn_since reports = some e.turn_start)

/-- The duration shown is the one of the turn, from its start to its end or to `now`. -/
def Shown (e : StatusEntry) (now : ℤ) (elapsed : ℕ) : Prop :=
  (is_live e.value → live_since reports = some (now - elapsed))
    ∧ (is_finished e.value → ∃ ended, ended_since reports = some ended
      ∧ ended_turn_since reports = some (ended - elapsed))

theorem not_finished_of_live {value : String} (h : is_live value = true) :
    is_finished value = false := by
  rw [is_live, Bool.or_eq_true, decide_eq_true_iff, decide_eq_true_iff] at h
  rcases h with rfl | rfl
  · decide
  · decide

/-! ## Runs -/

inductive Event where
  | report (entry : StatusEntry)
  | replace (seen next : StatusEntry)
  | clear (seen : StatusEntry)

/-- The store, and what was reported under the key since the entry came. -/
structure Timeline where
  store : Store
  reports : List Said

/-- A report is not older than the one before it. -/
def In_order (entry : StatusEntry) : Prop :=
  ∀ r ∈ reports.head?, r.time ≤ entry.timestamp

instance (reports : List Said) (entry : StatusEntry) : Decidable (In_order reports entry) :=
  inferInstanceAs (Decidable (∀ r ∈ reports.head?, r.time ≤ entry.timestamp))

section
variable (id : Id)

def Timeline.step (s : Timeline) : Event → Option Timeline
  | .report entry =>
    if entry.key = id.2 ∧ In_order s.reports entry then
      some ⟨(s.store.store id.1 entry).1, entry.said :: s.reports⟩
    else none
  | .replace seen next =>
    if seen.key = id.2 ∧ next.key = id.2 ∧ In_order s.reports next then
      let outcome := s.store.replace_if_unchanged id.1 seen next
      some ⟨outcome.1, if outcome.2 then next.said :: s.reports else s.reports⟩
    else none
  | .clear seen =>
    if seen.key = id.2 then
      let outcome := s.store.clear_if_unchanged id.1 seen
      some ⟨outcome.1, if outcome.2 then [] else s.reports⟩
    else none

/-- Every run of the reports of one entry. -/
def timeline : System Timeline Event where
  init s := s.store.get id = none ∧ s.reports = []
  step s event s' := s.step id event = some s'

end

/-! ## One report -/

/-- A report can be dated from the entry it replaces: the start of a turn that goes on is
told from the epoch, the end of one is not before it, and what ended ends once. -/
structure Datable (existing : Option StatusEntry) (entry : StatusEntry) : Prop where
  going : ∀ e ∈ existing, is_live e.value → 0 < e.turn_start ∨ e.turn_start = e.timestamp
  ending : is_finished entry.value → (∀ e ∈ existing, is_live e.value = false) → 0 ≤ entry.timestamp
  once : is_finished entry.value → ∀ e ∈ existing, e.value = entry.value → entry.timestamp = e.ended_at

/-- Every report that takes an entry's place can be dated from it. -/
def Report_datable (id : Id) (s : Timeline) : Event → Prop
  | .report entry => (∀ e, s.store.get id = some e → should_replace e entry = true) →
    Datable (s.store.get id) entry
  | .replace seen next => ∀ e, s.store.unchanged id.1 seen = some e → Datable (some e) next
  | .clear _ => True

/-- An entry stands for the last report made under its key. -/
structure Standing (reports : List Said) (e : StatusEntry) : Prop where
  last : ∃ r earlier, reports = r :: earlier ∧ r.value = e.value ∧ e.timestamp ≤ r.time
    ∧ (is_live e.value → e.turn_start ≤ r.time)
  dated : Dated reports e

section
variable {reports : List Said} {e entry : StatusEntry} {existing : Option StatusEntry}

variable (h : Standing reports e)
include h

theorem Standing.last_said : said_last reports = some e.value := by
  obtain ⟨r, earlier, rfl, hvalue, -⟩ := h.last
  rw [← hvalue]
  rfl

theorem Standing.live_since_getD (hlive : is_live e.value) (time : ℤ) :
    (live_since reports).getD time = e.turn_start := by
  rw [(h.dated.live hlive).2]
  rfl

/-- Before a live report comes there is no live streak where the entry is not live. -/
theorem Standing.live_since_none (hlive : is_live e.value = false) :
    live_since reports = none := by
  obtain ⟨r, earlier, rfl, hvalue, -⟩ := h.last
  rw [live_since, hvalue, hlive]
  rfl

/-- A report that repeats what is held leaves the entry standing. -/
theorem Standing.repeated (hsame : should_replace e entry = false)
    (horder : In_order reports entry) : Standing (entry.said :: reports) (Store.re_reported e entry) := by
  have hvalue : e.value = entry.value := by
    rw [should_replace] at hsame
    by_contra hne
    simp [hne] at hsame
  have hlast := h.last_said
  obtain ⟨r, earlier, hreports, hr, hstamp, hstart⟩ := h.last
  have hle : r.time ≤ entry.timestamp := horder r (by rw [hreports]; rfl)
  refine ⟨⟨entry.said, reports, rfl, hvalue.symm, Int.le_trans hstamp hle, ?_⟩, ?_, ?_⟩
  · intro hlive
    exact Int.le_trans (hstart hlive) hle
  · intro hlive
    refine ⟨(h.dated.live hlive).1, ?_⟩
    rw [live_since, StatusEntry.said_value, ← hvalue]
    exact (if_pos hlive).trans (congrArg some (h.live_since_getD hlive _))
  · intro hfinished
    obtain ⟨hbefore, hended, hturn⟩ := h.dated.finished hfinished
    have hfinished' : is_finished e.value = true := hfinished
    refine ⟨hbefore, ?_, ?_⟩
    · rw [ended_since, StatusEntry.said_value, ← hvalue, if_pos hfinished', if_pos hlast, hended]
      rfl
    · rw [ended_turn_since, StatusEntry.said_value, ← hvalue, if_pos hfinished', if_pos hlast]
      exact hturn

omit h

/-! ## What `carry_turn` goes by

What `carry_turn` goes by is what the reports say, where the entry can be dated from. -/

variable (hstanding : ∀ e ∈ existing, Standing reports e) (hnone : existing = none → reports = [])
  (hdatable : Datable existing entry) (horder : In_order reports entry)

include hstanding hnone hdatable in
theorem started_eq : ((existing.filter fun e => is_live e.value).map fun e =>
    if e.turn_start > 0 then e.turn_start else e.timestamp) = live_since reports := by
  cases existing with
  | none =>
    rw [hnone rfl]
    rfl
  | some e =>
    by_cases hlive : is_live e.value = true
    · rw [filter_some, if_pos hlive, ((hstanding e rfl).dated.live hlive).2, map_some]
      congr 1
      by_cases hstart : e.turn_start > 0
      · rw [if_pos hstart]
      · rw [if_neg hstart]
        have hgoing := hdatable.going e rfl hlive
        omega
    · rw [filter_some, if_neg hlive,
        (hstanding e rfl).live_since_none (Bool.eq_false_iff.mpr hlive)]
      rfl

include hstanding hnone horder in
/-- The streak that is going on began before the report that comes. -/
theorem live_since_le {time : ℤ} (hsince : live_since reports = some time) :
    time ≤ entry.timestamp := by
  cases existing with
  | none =>
    rw [hnone rfl, live_since] at hsince
    exact nomatch hsince
  | some e =>
    have h := hstanding e rfl
    by_cases hlive : is_live e.value = true
    · rw [(h.dated.live hlive).2] at hsince
      obtain ⟨r, earlier, rfl, -, -, hstart⟩ := h.last
      rw [← some.inj hsince]
      exact Int.le_trans (hstart hlive) (horder r rfl)
    · rw [h.live_since_none (Bool.eq_false_iff.mpr hlive)] at hsince
      exact nomatch hsince

include hstanding hnone in
/-- Where the last report said what this one says, that is what the entry holds. -/
theorem existing_of_said_last (hagain : said_last reports = some entry.value) :
    ∃ e ∈ existing, e.value = entry.value := by
  cases existing with
  | none =>
    rw [hnone rfl] at hagain
    exact nomatch hagain
  | some e =>
    rw [(hstanding e rfl).last_said] at hagain
    exact ⟨e, rfl, some.inj hagain⟩

include hstanding hnone hdatable horder in
/-- A report that takes the entry's place stands for itself. -/
theorem Standing.carried : Standing (entry.said :: reports) (carry_turn existing entry) := by
  have hstarted := started_eq hstanding hnone hdatable
  have hle := @live_since_le _ _ _ hstanding hnone horder
  rw [carry_turn, hstarted]
  by_cases hlive : is_live entry.value = true
  · rw [if_pos hlive]
    have hsince : live_since (entry.said :: reports)
        = some ((live_since reports).getD entry.timestamp) := if_pos hlive
    refine ⟨⟨entry.said, reports, rfl, rfl, Int.le_refl _, fun _ => ?_⟩, fun _ => ⟨rfl, hsince⟩, ?_⟩
    -- a streak that begins now begins with this report
    · cases hbefore : live_since reports with
      | none => exact Int.le_refl _
      | some time => exact hle hbefore
    · intro hfinished
      rw [not_finished_of_live hlive] at hfinished
      cases hfinished
  rw [if_neg hlive]
  by_cases hfinished : is_finished entry.value = true
  · have hended : entry.value = STATUS_DONE ∨ entry.value = STATUS_ERROR := by
      simpa [is_finished] using hfinished
    rw [if_pos hended]
    refine ⟨⟨entry.said, reports, rfl, rfl, Int.le_refl _, fun h => absurd h hlive⟩,
      fun h => absurd h hlive, fun _ => ⟨?_, ?_, ?_⟩⟩
    -- a turn that was never seen to start has the start 0
    · cases hbefore : live_since reports with
      | none =>
        refine hdatable.ending hfinished fun e he => ?_
        by_contra hlive'
        rw [((hstanding e he).dated.live (by simpa using hlive')).2] at hbefore
        cases hbefore
      | some time => exact hle hbefore
    · rw [ended_since, StatusEntry.said_value, if_pos hfinished]
      by_cases hagain : said_last reports = some entry.value
      · obtain ⟨e, he, hvalue⟩ := existing_of_said_last hstanding hnone hagain
        rw [if_pos hagain, ((hstanding e he).dated.finished (hvalue ▸ hfinished)).2.1,
          hdatable.once hfinished e he hvalue]
        rfl
      · rw [if_neg hagain]
        rfl
    · rw [ended_turn_since, StatusEntry.said_value, if_pos hfinished]
      by_cases hagain : said_last reports = some entry.value
      -- what repeats has no live entry before it
      · obtain ⟨e, he, hvalue⟩ := existing_of_said_last hstanding hnone hagain
        have hnot : is_live e.value = false := by
          rw [hvalue]
          exact Bool.eq_false_iff.mpr hlive
        rw [(hstanding e he).live_since_none hnot]
        exact .inl rfl
      · rw [if_neg hagain]
        cases live_since reports with
        | none => exact .inl rfl
        | some time => exact .inr rfl
  · have hended : ¬(entry.value = STATUS_DONE ∨ entry.value = STATUS_ERROR) := by
      simpa [is_finished] using hfinished
    rw [if_neg hended]
    exact ⟨⟨entry.said, reports, rfl, rfl, Int.le_refl _, fun h => absurd h hlive⟩,
      fun h => absurd h hlive, fun h => absurd h hfinished⟩

/-- The dates of an entry that stands give the duration of its turn. -/
theorem Standing.shown (h : Standing reports e) {now : ℤ} (hstart : 0 < e.turn_start)
    (hvalue : is_live e.value = true ∨ is_finished e.value = true)
    (hnow : ∀ r ∈ reports.head?, r.time ≤ now) :
    ∃ elapsed, e.turn_elapsed_ms now = some elapsed ∧ Shown reports e now elapsed := by
  have hseen : ¬e.turn_start ≤ 0 := by omega
  rw [StatusEntry.turn_elapsed_ms, if_neg hseen]
  rcases hvalue with hlive | hfinished
  · obtain ⟨hended, hsince⟩ := h.dated.live hlive
    obtain ⟨r, earlier, rfl, -, -, hle⟩ := h.last
    have hnow' : e.turn_start ≤ now := Int.le_trans (hle hlive) (hnow r rfl)
    have hgoing : ¬e.ended_at > 0 := by omega
    refine ⟨(now - e.turn_start).toNat, ?_, fun _ => ?_, fun hfinished => ?_⟩
    · rw [if_neg hgoing]
      exact if_pos (by omega)
    · rw [hsince, Int.toNat_of_nonneg (by omega)]
      congr 1
      omega
    · rw [not_finished_of_live hlive] at hfinished
      exact nomatch hfinished
  · obtain ⟨hle, hended, hturn⟩ := h.dated.finished hfinished
    have hover : e.ended_at > 0 := by omega
    refine ⟨(e.ended_at - e.turn_start).toNat, ?_, fun hlive => ?_, fun _ => ⟨_, hended, ?_⟩⟩
    · rw [if_pos hover]
      exact if_pos (by omega)
    · rw [not_finished_of_live hlive] at hfinished
      exact nomatch hfinished
    · rw [hturn.resolve_left (by omega), Int.toNat_of_nonneg (by omega)]
      congr 1
      omega

end

/-! ## Every report -/

/-- What holds of an entry and its reports after any of them. -/
structure Timeline.Inv (id : Id) (s : Timeline) : Prop where
  standing : ∀ e ∈ s.store.get id, Standing s.reports e
  bare : s.store.get id = none → s.reports = []

section
variable {id : Id} {s s' : Timeline} {event : Event} {e e' : StatusEntry}

open Store

theorem Timeline.Inv.report (h : s.Inv id) {entry : StatusEntry}
    (hdatable : Report_datable id s (.report entry)) (hstep : s.step id (.report entry) = some s') :
    s'.Inv id := by
  rw [Timeline.step] at hstep
  split_ifs at hstep with hentry
  obtain ⟨hkey, horder⟩ := hentry
  cases hstep
  have hid : (id.1, entry.key) = id := by rw [hkey]
  have hdatable' : (∀ e, s.store.get id = some e → should_replace e entry = true) →
      Datable (s.store.get id) entry := hdatable
  have hreported := store_cases id.1 entry s.store
  -- either the entry is the stored one again, or it takes its place
  generalize s.store.store id.1 entry = outcome at hreported ⊢
  cases hreported with
  | @repeated e hget hsame =>
    rw [hid] at hget
    have hkey' : e.key = id.2 := get_key hget
    have hput : (s.store.put id.1 (re_reported e entry)).get id = some (re_reported e entry) := by
      have hself := @get_put_self s.store id.1 (re_reported e entry)
      rw [show (re_reported e entry).key = id.2 from hkey'] at hself
      exact hself
    refine ⟨fun e' he' => ?_, fun hnone => ?_⟩
    · rw [hput] at he'
      rw [← some.inj he']
      exact (h.standing e hget).repeated hsame horder
    · rw [hput] at hnone
      cases hnone
  | replaced hnew =>
    rw [hid] at hnew
    rw [hid]
    have hput : (s.store.put id.1 (reported (s.store.get id) entry)).get id
        = some (reported (s.store.get id) entry) := by
      have hself := @get_put_self s.store id.1 (reported (s.store.get id) entry)
      rw [reported_key, hid] at hself
      exact hself
    refine ⟨fun e' he' => ?_, fun hnone => ?_⟩
    · rw [hput] at he'
      rw [← some.inj he', reported]
      have hd := hdatable' hnew
      exact @Standing.carried s.reports { entry with
          reported_at := entry.timestamp
          compact := entry.compact && !(s.store.get id).any fun e => is_live e.value }
        _ h.standing h.bare ⟨hd.going, hd.ending, hd.once⟩ horder
    · rw [hput] at hnone
      cases hnone

theorem Timeline.Inv.replace (h : s.Inv id) {seen next : StatusEntry}
    (hdatable : Report_datable id s (.replace seen next))
    (hstep : s.step id (.replace seen next) = some s') : s'.Inv id := by
  rw [Timeline.step] at hstep
  split_ifs at hstep with hnext
  obtain ⟨hseen, hkey, horder⟩ := hnext
  cases hstep
  rw [replace_if_unchanged]
  cases hunchanged : s.store.unchanged id.1 seen with
  | none => exact h
  | some existing =>
    obtain ⟨hget, -⟩ := unchanged_eq_some.mp hunchanged
    have hid : (id.1, seen.key) = id := by rw [hseen]
    rw [hid] at hget
    have hput : (s.store.put id.1 (carry_turn (some existing) next)).get id
        = some (carry_turn (some existing) next) := by
      have hself := @get_put_self s.store id.1 (carry_turn (some existing) next)
      rw [carry_turn_key, hkey] at hself
      exact hself
    have hstanding : ∀ e ∈ some existing, Standing s.reports e := by
      intro e he
      exact h.standing e (hget.trans he)
    refine ⟨fun e' he' => ?_, fun hnone => ?_⟩
    · rw [mem_def, hput] at he'
      rw [← some.inj he']
      exact Standing.carried hstanding nofun (hdatable existing hunchanged) horder
    · rw [hput] at hnone
      exact nomatch hnone

theorem Timeline.Inv.clear (h : s.Inv id) {seen : StatusEntry}
    (hstep : s.step id (.clear seen) = some s') : s'.Inv id := by
  rw [Timeline.step] at hstep
  split_ifs at hstep with hseen
  cases hstep
  rw [clear_if_unchanged]
  cases hunchanged : s.store.unchanged id.1 seen with
  | none => exact h
  | some existing =>
    have hid : (id.1, seen.key) = id := by rw [hseen]
    have hgone : (s.store.remove (id.1, seen.key)).get id = none := by
      have hself := @get_remove_self s.store (id.1, seen.key)
      rw [hid] at hself ⊢
      exact hself
    refine ⟨fun e' he' => ?_, fun _ => rfl⟩
    rw [mem_def, hgone] at he'
    cases he'

theorem Timeline.Inv.step (h : s.Inv id) (hdatable : Report_datable id s event)
    (hstep : s.step id event = some s') : s'.Inv id := by
  cases event with
  | report entry => exact h.report hdatable hstep
  | replace seen next => exact h.replace hdatable hstep
  | clear seen => exact h.clear hstep

theorem timeline_inv (h : Reachable ((timeline id).when (Report_datable id)) s) : s.Inv id := by
  refine h.invariant ?_ ?_
  · rintro s ⟨hget, hreports⟩
    refine ⟨fun e he => ?_, fun _ => hreports⟩
    rw [hget] at he
    exact nomatch he
  · intro s event s' hs ⟨hdatable, hstep⟩
    exact hs.step hdatable hstep

/-- A step that leaves an entry with what it said reports that again, or nothing. -/
theorem ended_since_kept (h : s.Inv id) (hstep : s.step id event = some s')
    (h' : s'.Inv id) (hget : s.store.get id = some e) (hget' : s'.store.get id = some e')
    (hvalue : e'.value = e.value) (hfinished : is_finished e.value = true) :
    ended_since s'.reports = ended_since s.reports := by
  have hlast := (h'.standing e' hget').last_said
  have hbefore := (h.standing e hget).last_said
  have hended := ((h.standing e hget).dated.finished hfinished).2.1
  have hkept : ∀ entry : StatusEntry, s'.reports = entry.said :: s.reports →
      ended_since s'.reports = ended_since s.reports := by
    intro entry hreports
    have hsaid : entry.value = e.value := by
      rw [hreports] at hlast
      rw [← hvalue]
      exact some.inj hlast
    rw [hreports, ended_since, StatusEntry.said_value, hsaid, if_pos hfinished, if_pos hbefore,
      hended]
    rfl
  cases event with
  | report entry =>
    rw [Timeline.step] at hstep
    split_ifs at hstep
    cases hstep
    exact hkept entry rfl
  | replace seen next =>
    rw [Timeline.step] at hstep
    split_ifs at hstep
    cases hstep
    by_cases hreplaced : (s.store.replace_if_unchanged id.1 seen next).2 = true
    · exact hkept next (if_pos hreplaced)
    · exact congrArg ended_since (if_neg hreplaced)
  | clear seen =>
    rw [Timeline.step] at hstep
    split_ifs at hstep
    cases hstep
    by_cases hcleared : (s.store.clear_if_unchanged id.1 seen).2 = true
    -- what was taken away says nothing any more
    · rw [if_pos hcleared] at hlast
      exact nomatch hlast
    · exact congrArg ended_since (if_neg hcleared)

/-- While every report can be dated from the entry it replaces, the dates of the entry are
those of its turn, what repeats a finished report leaves the end where it is, and the
duration shown is the one of the turn. -/
theorem turns_are_dated (hs : Reachable ((timeline id).when (Report_datable id)) s)
    (hget : s.store.get id = some e) : Dated s.reports e
      ∧ (∀ event s' e', Report_datable id s event → s.step id event = some s' →
        s'.store.get id = some e' → is_finished e.value = true → e'.value = e.value →
          e'.ended_at = e.ended_at)
      ∧ ∀ now, 0 < e.turn_start → is_live e.value = true ∨ is_finished e.value = true →
        (∀ r ∈ s.reports.head?, r.time ≤ now) →
          ∃ elapsed, e.turn_elapsed_ms now = some elapsed ∧ Shown s.reports e now elapsed := by
  have hinv := timeline_inv hs
  have hstanding := hinv.standing e hget
  refine ⟨hstanding.dated, ?_, fun now hstart hvalue hnow => hstanding.shown hstart hvalue hnow⟩
  intro event s' e' hdatable hstep hget' hfinished hvalue
  have hinv' := hinv.step hdatable hstep
  have hkept := ended_since_kept hinv hstep hinv' hget hget' hvalue hfinished
  rw [((hinv'.standing e' hget').dated.finished (hvalue.symm ▸ hfinished)).2.1,
    (hstanding.dated.finished hfinished).2.1] at hkept
  exact some.inj hkept

end

/-! ## A tab that reconnects between two Dones

A tab works, finishes, and reconnects under another pane id before its agent says once
more that it is done. -/

instance (existing : Option StatusEntry) (entry : StatusEntry) : Decidable (Datable existing entry) :=
  decidable_of_iff
    ((∀ e ∈ existing, is_live e.value → 0 < e.turn_start ∨ e.turn_start = e.timestamp)
      ∧ (is_finished entry.value → (∀ e ∈ existing, is_live e.value = false) → 0 ≤ entry.timestamp)
      ∧ (is_finished entry.value →
        ∀ e ∈ existing, e.value = entry.value → entry.timestamp = e.ended_at))
    ⟨fun ⟨going, ending, once⟩ => ⟨going, ending, once⟩, fun h => ⟨h.going, h.ending, h.once⟩⟩

def tab_id : Id := ("api", "codex_1")

def tab_report (value pane_id : String) (timestamp : ℤ) : StatusEntry :=
  { StatusEntry.default with key := tab_id.2, value, pane_id, timestamp }

def works : StatusEntry := tab_report STATUS_RUNNING "1" 5

def finishes : StatusEntry := tab_report STATUS_DONE "1" 10

def repeats : StatusEntry := tab_report STATUS_DONE "2" 20

def idle_tab : Timeline := ⟨Store.empty, []⟩

def working_tab : Timeline :=
  (idle_tab.step tab_id (.report works)).get (by decide +kernel)

def done_tab : Timeline :=
  (working_tab.step tab_id (.report finishes)).get (by decide +kernel)

def repeated_tab : Timeline :=
  (done_tab.step tab_id (.report repeats)).get (by decide +kernel)

theorem working_tab_eq : idle_tab.step tab_id (.report works) = some working_tab :=
  (some_get _).symm

theorem done_tab_eq : working_tab.step tab_id (.report finishes) = some done_tab :=
  (some_get _).symm

theorem repeated_tab_eq : done_tab.step tab_id (.report repeats) = some repeated_tab :=
  (some_get _).symm

theorem turns_are_dated_done : ∃ e, done_tab.store.get tab_id = some e ∧ Dated done_tab.reports e
    ∧ e.turn_start = 5 ∧ e.ended_at = 10 := by
  have hidle : Reachable ((timeline tab_id).when (Report_datable tab_id)) idle_tab :=
    .start ⟨rfl, rfl⟩
  have hworks : Report_datable tab_id idle_tab (.report works) := fun _ => by decide +kernel
  have hfinishes : Report_datable tab_id working_tab (.report finishes) :=
    fun _ => by decide +kernel
  have hdone := (hidle.next ⟨hworks, working_tab_eq⟩).next ⟨hfinishes, done_tab_eq⟩
  have hdates : (done_tab.store.get tab_id).map (fun e => (e.turn_start, e.ended_at))
      = some (5, 10) := by decide +kernel
  obtain ⟨e, hget, he⟩ := map_eq_some_iff.mp hdates
  obtain ⟨hstart, hended⟩ := Prod.mk.inj he
  exact ⟨e, hget, (turns_are_dated hdone hget).1, hstart, hended⟩

/-- The report that repeats it from another pane moves the turn's end, and loses its start. -/
theorem repeated_done_moves_end : Reachable (timeline tab_id) done_tab
    ∧ done_tab.step tab_id (.report repeats) = some repeated_tab
    ∧ (done_tab.store.get tab_id).map (fun e => (e.value, e.turn_start, e.ended_at))
      = some (STATUS_DONE, 5, 10)
    ∧ (repeated_tab.store.get tab_id).map (fun e => (e.value, e.turn_start, e.ended_at))
      = some (STATUS_DONE, 0, 20) := by
  have hidle : Reachable (timeline tab_id) idle_tab := .start ⟨rfl, rfl⟩
  refine ⟨(hidle.next working_tab_eq).next done_tab_eq, repeated_tab_eq, ?_, ?_⟩
  · decide +kernel
  · decide +kernel

end Lpm.Status
