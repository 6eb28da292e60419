/-
Updates are dealt with before they are confirmed, in every run that keeps each bot's
progress apart.

One read runs at a time, so what it found when it started still holds when it stores where
it got to: nobody else hands on or records. What `Kept` adds is that the record it found
and the record it writes are of the bot it reads, that no other bot's updates are held, and
that a record begun anew for a bot has nothing of that bot's left to confirm.
-/
import Lpm.Telegram.Poll
import Mathlib.Tactic.FinCases

set_option autoImplicit false

open Transition

namespace Lpm.Telegram

open List Option Function

section
variable {β : Type} {v : Server} {a : Account β} {ids done : List Int} {held : List (Held β)}
variable {now : Nat}

/-! ## The offset a batch leads to -/

theorem next_isSome (h : ids ≠ []) : (next_offset ids held now).isSome := by
  unfold next_offset
  cases (ids.filter (waits held now)).min? with
  | some n => rfl
  | none =>
    obtain ⟨m, hm⟩ := isSome_max?_of_ne_nil h |> isSome_iff_exists.mp
    rw [hm]
    rfl

/-- It is an update that waits, the first, or the one after the last. -/
theorem next_cases {n : Int} (h : next_offset ids held now = some n) :
    (n ∈ ids ∨ ∃ m ∈ ids, n = m + 1 ∧ ∀ id ∈ ids, id ≤ m) ∧
    ∀ id ∈ ids, waits held now id = true → n ≤ id := by
  unfold next_offset at h
  cases hmin : (ids.filter (waits held now)).min? with
  | some m =>
    rw [hmin] at h
    obtain rfl : m = n := some.inj h
    obtain ⟨hmem, hle⟩ := min?_eq_some_iff.mp hmin
    refine ⟨Or.inl (mem_of_mem_filter hmem), fun id hid hw => ?_⟩
    exact hle id (mem_filter.mpr ⟨hid, hw⟩)
  | none =>
    rw [hmin] at h
    obtain ⟨m, hm, rfl⟩ := map_eq_some_iff.mp h
    obtain ⟨hmem, hle⟩ := max?_eq_some_iff.mp hm
    refine ⟨Or.inr ⟨m, hmem, rfl, hle⟩, fun id hid hw => ?_⟩
    have hin : id ∈ ids.filter (waits held now) := mem_filter.mpr ⟨hid, hw⟩
    rw [min?_eq_none_iff.mp hmin] at hin
    exact absurd hin not_mem_nil

/-- What is held and does not wait any more was held for the grace. -/
theorem aged_of_not_waits {id : Int} (hheld : ∃ h ∈ held, h.id = id)
    (hw : waits held now id = false) :
    ∃ h ∈ held, h.id = id ∧ FOREIGN_GRACE ≤ now - h.since := by
  unfold waits at hw
  cases hfind : held.find? (·.id = id) with
  | none =>
    obtain ⟨h, hmem, rfl⟩ := hheld
    have hne := find?_eq_none.mp hfind h hmem
    exact absurd (decide_eq_true rfl) hne
  | some h =>
    rw [hfind] at hw
    refine ⟨h, mem_of_find?_eq_some hfind, ?_, ?_⟩
    · simpa using find?_some hfind
    · exact not_lt.mp (of_decide_eq_false hw)

variable [DecidableEq β]

theorem Handling.ended {b : β} (h : Handling v a held ids [] done)
    (hheld : ∀ e ∈ held, e.bot = b) {waited : List Int}
    (hwaited : waited = (held.filter fun h =>
      decide (h.bot = b ∧ FOREIGN_GRACE ≤ now - h.since)).map Held.id ++ a.waited) :
    Writing v { a with waited } (next_offset ids held now) done := by
  -- who waits no longer is dealt with, or has waited out its grace
  have hready : ∀ id ∈ ids, waits held now id = false → Ready { a with waited } id := by
    intro id hid hw
    rcases h.seen id hid with ht | hdealt | ⟨hin, seen, hseen⟩
    · exact absurd ht not_mem_nil
    · obtain ⟨seen, hseen, hforeign⟩ := hdealt
      exact ⟨seen, hseen, fun hf => Or.inr (hforeign hf)⟩
    · obtain ⟨e, he, rfl, hgrace⟩ := aged_of_not_waits hin hw
      refine ⟨seen, hseen, fun _ => Or.inl ?_⟩
      rw [hwaited]
      refine mem_append_left _ (List.mem_map_of_mem ?_)
      exact mem_filter.mpr ⟨he, decide_eq_true ⟨hheld e he, hgrace⟩⟩
  refine ⟨next_isSome h.filled, fun id hid => (h.done id hid).2.2, fun e he n hn => ?_,
    fun n hn id hid hconfirmed hlt => ?_, fun n hn => ?_⟩
  · obtain ⟨hn' | ⟨m, hm, rfl, -⟩, -⟩ := next_cases hn
    · exact h.stored e he n hn'
    · have := h.stored e he m hm
      omega
  · obtain ⟨hcase, hwaits⟩ := next_cases hn
    by_cases hin : id ∈ ids
    · refine hready id hin (Bool.eq_false_iff.mpr fun hw => ?_)
      have := hwaits id hin hw
      omega
    · rcases h.before id hid hconfirmed hin with hall | hr
      · rcases hcase with hn' | ⟨m, hm, rfl, -⟩
        · have := hall n hn'
          omega
        · have := hall m hm
          omega
      · obtain ⟨seen, hseen, hforeign⟩ := hr
        refine ⟨seen, hseen, fun hf => (hforeign hf).imp_left fun hw => ?_⟩
        rw [hwaited]
        exact mem_append_right _ hw
  · obtain ⟨hn' | ⟨m, hm, rfl, -⟩, -⟩ := next_cases hn
    · exact ⟨n, h.subset hn', by omega⟩
    · exact ⟨m, h.subset hm, le_refl _⟩

omit [DecidableEq β] in
/-- The offset is stored over what the record says of the bot by then. -/
theorem Writing.progress {r : Record β} {b : β} {n : Int} (h : Writing v a (some n) done)
    (hp : Progress v a r.offset r.handled) :
    Progress v { a with recorded := done ++ a.recorded, stored := (n, b) :: a.stored }
      (r.advance (some n) done).offset (r.advance (some n) done).handled := by
  have hmem : ∀ id, id ∈ (r.advance (some n) done).handled ↔
      (id ∈ r.handled ∨ id ∈ done) ∧ n ≤ id := by
    intro id
    simp only [Record.advance, mem_dedup, mem_mergeSort, mem_filter,
      mem_append, decide_eq_true_iff]
  -- what drops out of the list lies below the offset
  have hplace : ∀ id, id ∈ r.handled ∨ id ∈ done →
      id ∈ (r.advance (some n) done).handled ∨ id < n := by
    intro id hid
    by_cases hle : n ≤ id
    · exact Or.inl ((hmem id).mpr ⟨hid, hle⟩)
    · exact Or.inr (not_le.mp hle)
  refine ⟨fun id hid => ?_, fun id hid => ?_, fun e he => ?_, ?_, ?_, ?_⟩
  · have hlisted : id ∈ r.handled ∨ id ∈ done → id < v.confirmed ∨
        id ∈ (r.advance (some n) done).handled ∨
          ∃ m ∈ (r.advance (some n) done).offset, id < m := fun hor =>
      Or.inr ((hplace id hor).imp_right fun hlt => ⟨n, rfl, hlt⟩)
    rcases mem_append.mp hid with hdone | hrec
    · exact hlisted (Or.inr hdone)
    · rcases hp.recorded id hrec with hlt | hin | ⟨m, hm, hlt⟩
      · exact Or.inl hlt
      · exact hlisted (Or.inl hin)
      · obtain ⟨c, hc⟩ := hp.last m hm
        have hle : m ≤ n := h.stored _ hc n rfl
        exact Or.inr (Or.inr ⟨n, rfl, lt_of_lt_of_le hlt hle⟩)
  · obtain ⟨hor, -⟩ := (hmem id).mp hid
    rcases hor with hin | hdone
    · obtain ⟨hrec, hdealt⟩ := hp.dealt id hin
      exact ⟨mem_append_right _ hrec, hdealt⟩
    · exact ⟨mem_append_left _ hdone, h.done id hdone⟩
  · rcases mem_cons.mp he with rfl | hold
    · exact Or.inr ⟨n, rfl, le_refl _⟩
    · exact Or.inr ⟨n, rfl, h.stored e hold n rfl⟩
  · rintro _ ⟨⟩
    exact ⟨b, mem_cons_self⟩
  · rintro _ ⟨⟩ id hid hconfirmed hlt
    exact h.passed n rfl id hid hconfirmed hlt
  · rintro _ ⟨⟩
    exact h.bound n rfl

omit [DecidableEq β] in
theorem Progress.waited {offset : Option Int} {handled waited : List Int}
    (h : Progress v a offset handled) (hw : a.waited ⊆ waited) :
    Progress v { a with waited } offset handled where
  recorded := h.recorded
  dealt := h.dealt
  stored := h.stored
  last := h.last
  passed n hn id hid hconfirmed hlt := by
    obtain ⟨seen, hseen, hforeign⟩ := h.passed n hn id hid hconfirmed hlt
    exact ⟨seen, hseen, fun hf => (hforeign hf).imp_left fun hin => hw hin⟩
  bound := h.bound

end

/-! ## The invariant -/

section
variable {β : Type} [DecidableEq β] {s s' : State β} {b : β}

/-- What holds of the one read. -/
def Reading (server : β → Server) (account : β → Account β) (held : List (Held β)) :
    Pump β → Prop
  | .idle => True
  | .asks b offset handled => (∀ h ∈ held, h.bot = b) ∧
      Progress (server b) (account b) offset handled
  | .asked b offset handled => (∀ h ∈ held, h.bot = b) ∧
      Progress (server b) (account b) offset handled
  | .handles b _ ids todo done => (∀ h ∈ held, h.bot = b) ∧
      Handling (server b) (account b) held ids todo done
  | .writes b next done => Writing (server b) (account b) next done

structure Inv (s : State β) : Prop where
  ascending : ∀ b, (s.server b).updates.Pairwise (· < ·)
  descending : ∀ b, (s.account b).stored.Pairwise fun e e' => e'.1 ≤ e.1
  source : ∀ b, ∀ e ∈ (s.account b).stored, e.2 = b
  record : ∀ b, s.record.bot = some b →
    Progress (s.server b) (s.account b) s.record.offset s.record.handled
  pump : Reading s.server s.account s.held s.pump

omit [DecidableEq β] in
theorem Reading.grown {server server' : β → Server} {account : β → Account β}
    {held : List (Held β)} {pump : Pump β} (h : Reading server account held pump)
    (hg : ∀ b, Grown (server b) (server' b)) : Reading server' account held pump := by
  cases pump with
  | idle => trivial
  | asks b offset handled | asked b offset handled | handles b handled ids todo done => exact ⟨h.1, h.2.grown (hg b)⟩
  | writes b next done => exact Writing.grown h (hg b)

theorem Inv.served (h : Inv s) {v : Server} (hg : Grown (s.server b) v)
    (hasc : v.updates.Pairwise (· < ·)) : Inv (s.serve b v) := by
  have hgrown : ∀ c, Grown (s.server c) ((s.serve b v).server c) := by
    intro c
    by_cases hc : c = b
    · subst hc
      simp only [State.serve, update_self]
      exact hg
    · simp only [State.serve, update_of_ne hc]
      exact ⟨le_refl _, List.Subset.refl _, fun id hid => Or.inl hid⟩
  refine ⟨fun c => ?_, h.descending, h.source, fun c hc => (h.record c hc).grown (hgrown c),
    h.pump.grown hgrown⟩
  by_cases hc : c = b
  · subst hc
    simp only [State.serve, update_self]
    exact hasc
  · simp only [State.serve, update_of_ne hc]
    exact h.ascending c

/-- Pruning keeps a record or begins another. -/
theorem prune_cases (link : Option (Option β)) (r : Record β) :
    r.prune link = r ∨ ∃ bot, r.bot ≠ bot ∧ r.prune link = { bot, offset := none, handled := [] } := by
  unfold Record.prune
  cases link with
  | none => exact Or.inl rfl
  | some bot =>
    by_cases hne : r.bot ≠ bot
    · exact Or.inr ⟨bot, hne, if_pos hne⟩
    · exact Or.inl (if_neg hne)

/-- What the record says of its bot once it is pruned, also where it is begun anew. -/
theorem Inv.pruned (h : Inv s) (hr : Renewed s) (hb : (s.record.prune s.link).bot = some b) :
    Progress (s.server b) (s.account b) (s.record.prune s.link).offset
      (s.record.prune s.link).handled := by
  rcases prune_cases s.link s.record with hsame | ⟨bot, hne, hnew⟩
  · rw [hsame] at hb ⊢
    exact h.record b hb
  · obtain rfl : bot = some b := by rwa [hnew] at hb
    obtain ⟨hrecorded, hstored⟩ := hr b hne hb
    rw [hnew]
    refine ⟨fun id hid => Or.inl (hrecorded id hid), ?_, fun e he => Or.inl (hstored e he), ?_, ?_,
      ?_⟩
    · exact fun id hid => absurd hid not_mem_nil
    all_goals exact fun n hn => nomatch hn

/-- An offset is always written: a record that has it already was not begun anew. -/
theorem with_advance (s : State β) (n : Int) (done : List Int) :
    s.with_ true (·.advance (some n) done) =
      { s with record := (s.record.prune s.link).advance (some n) done } := by
  unfold State.with_
  dsimp only
  split
  · rfl
  next hsame =>
    have heq : (s.record.prune s.link).advance (some n) done = s.record.prune s.link :=
      not_ne_iff.mp fun hne => hsame ⟨hne, rfl⟩
    rcases prune_cases s.link s.record with hkept | ⟨bot, -, hnew⟩
    · rw [heq, hkept]
    · rw [hnew] at heq
      exact absurd (congrArg Record.offset heq) (some_ne_none n)

end

section
variable {β : Type} [DecidableEq β] {s s' : State β} {b : β}

/-- Handing an update on tells apart those held back and those done with. -/
theorem handle_noted (s : State β) (b : β) (id : Int) (seen : Seen) :
    ∃ a, (s.handle b id seen).1 = { s.note b a with held := (s.handle b id seen).1.held } ∧
      Noted (s.account b) a id seen ∧ s.held ⊆ (s.handle b id seen).1.held ∧
      (∀ h ∈ (s.handle b id seen).1.held, h ∈ s.held ∨ h.bot = b) ∧
      ((∀ h ∈ s.held, h.bot = b) → if (s.handle b id seen).2 then Dealt a id
        else ∃ h ∈ (s.handle b id seen).1.held, h.id = id) := by
  unfold State.handle
  dsimp only
  split
  next hheld =>
    refine ⟨_, rfl, ⟨rfl, List.Subset.refl _, rfl, rfl, rfl⟩, ?_, fun h hmem => ?_, fun _ => ?_⟩
    · dsimp only
      split
      · exact List.Subset.refl _
      · exact subset_append_left _ _
    · dsimp only at hmem
      split at hmem
      · exact Or.inl hmem
      · rcases mem_append.mp hmem with hold | hnew
        · exact Or.inl hold
        · obtain rfl := mem_singleton.mp hnew
          exact Or.inr rfl
    · simp only [Bool.false_eq_true, if_false]
      split
      next hknown =>
        obtain ⟨h, hmem, hid⟩ := List.any_eq_true.mp hknown
        exact ⟨h, hmem, of_decide_eq_true hid⟩
      next => exact ⟨_, mem_append_right _ mem_cons_self, rfl⟩
  next hover =>
    refine ⟨_, rfl, ⟨rfl, ?_, rfl, rfl, rfl⟩, List.Subset.refl _, fun h hmem => Or.inl hmem,
      fun hmine => ?_⟩
    · dsimp only
      split
      · exact subset_cons_self _ _
      · exact List.Subset.refl _
    · simp only [if_true]
      refine ⟨seen, lookup_cons_self, fun hforeign => ?_⟩
      -- the held ones are all of this bot, so the crowd is too
      have hmany : MAX_HELD ≤ (s.held.filter (·.bot = b)).length := by
        rw [filter_eq_self.mpr fun h hmem => decide_eq_true (hmine h hmem)]
        exact not_lt.mp fun hlt => hover ⟨hforeign, Or.inr hlt⟩
      dsimp only
      rw [if_pos ⟨hforeign, hmany⟩]
      exact mem_cons_self

/-- The account of one bot changes where nothing of it was stored. -/
theorem Inv.noted (h : Inv s) {a : Account β} {held : List (Held β)} {pump : Pump β}
    (hstored : a.stored = (s.account b).stored)
    (hrecord : s.record.bot = some b → Progress (s.server b) a s.record.offset s.record.handled)
    (hpump : Reading s.server (s.note b a).account held pump) :
    Inv { s.note b a with held, pump } := by
  have hsame : ∀ c, ((s.note b a).account c).stored = (s.account c).stored := by
    intro c
    by_cases hc : c = b
    · subst hc
      simp only [State.note, update_self]
      exact hstored
    · simp only [State.note, update_of_ne hc]
  refine ⟨h.ascending, fun c => ?_, fun c => ?_, fun c hc => ?_, hpump⟩
  · dsimp only
    rw [hsame]
    exact h.descending c
  · dsimp only
    rw [hsame]
    exact h.source c
  · have hrec : s.record.bot = some c := hc
    by_cases he : c = b
    · subst he
      simp only [State.note, update_self]
      exact hrecord hrec
    · simp only [State.note, update_of_ne he]
      exact h.record c hrec

theorem Inv.handled (h : Inv s) {handled ids todo done : List Int} {id : Int} {seen : Seen}
    (hp : s.pump = .handles b handled ids (id :: todo) done) :
    Inv { (s.handle b id seen).1 with
      pump := .handles b handled ids todo
        (if (s.handle b id seen).2 then done ++ [id] else done) } := by
  have hread := h.pump
  rw [hp] at hread
  obtain ⟨hmine, hhandling⟩ := hread
  obtain ⟨a, heq, hnoted, hheld, hadded, hover⟩ := handle_noted s b id seen
  obtain ⟨hin, hfresh⟩ := hhandling.fresh id mem_cons_self
  rw [heq]
  refine h.noted hnoted.stored (fun hb => ?_) ⟨fun e he => ?_, ?_⟩
  · exact (h.record b hb).noted hnoted hfresh fun e he => hhandling.stored e he id hin
  · exact (hadded e he).elim (hmine e) fun hb => hb
  · simp only [State.note, update_self]
    exact hhandling.noted hnoted hheld (hover hmine)

theorem Inv.ended (h : Inv s) {handled ids done : List Int}
    (hp : s.pump = .handles b handled ids [] done) (hs : step s .next = some s') : Inv s' := by
  have hread := h.pump
  rw [hp] at hread
  obtain ⟨hmine, hhandling⟩ := hread
  rw [step, hp] at hs
  cases hs
  refine h.noted rfl (fun hb => ?_) ?_
  · exact (h.record b hb).waited (subset_append_right _ _)
  · simp only [Reading, State.note, update_self]
    exact hhandling.ended hmine rfl

theorem Inv.written (h : Inv s) {next : Option Int} {done : List Int} {saved : Bool}
    (hp : s.pump = .writes b next done) (hb : (s.record.prune s.link).bot = some b)
    (hr : Renewed s) (hs : step s (.write saved) = some s') : Inv s' := by
  have hread := h.pump
  rw [hp] at hread
  have hwriting : Writing (s.server b) (s.account b) next done := hread
  obtain ⟨n, rfl⟩ := isSome_iff_exists.mp hwriting.isSome
  -- a save that fails changes nothing
  cases saved with
  | false =>
    have hsame : s.with_ false (·.advance (some n) done) = s := if_neg fun hand => nomatch hand.2
    rw [step, hp] at hs
    dsimp only at hs
    rw [hsame] at hs
    cases hs
    exact ⟨h.ascending, h.descending, h.source, h.record, trivial⟩
  | true =>
    have hbot : ((s.record.prune s.link).advance (some n) done).bot = some b := hb
    rw [step, hp] at hs
    dsimp only at hs
    rw [with_advance] at hs
    dsimp only at hs
    rw [hbot] at hs
    cases hs
    refine ⟨h.ascending, fun c => ?_, fun c => ?_, fun c hc => ?_, trivial⟩
    · by_cases he : c = b
      · subst he
        simp only [State.note, update_self]
        exact pairwise_cons.mpr ⟨fun e he => hwriting.stored e he n rfl, h.descending c⟩
      · simp only [State.note, update_of_ne he]
        exact h.descending c
    · by_cases he : c = b
      · subst he
        simp only [State.note, update_self]
        intro e hin
        rcases mem_cons.mp hin with rfl | hold
        · rfl
        · exact h.source c e hold
      · simp only [State.note, update_of_ne he]
        exact h.source c
    · obtain rfl : b = c := some.inj (hbot.symm.trans hc)
      simp only [State.note, update_self]
      exact hwriting.progress (h.pruned hr hb)

theorem Inv.step {e : Event β} (h : Inv s) (hk : Kept s e) (hs : step s e = some s') : Inv s' := by
  cases e with
  | arrives b id =>
    rw [Telegram.step] at hs
    split at hs
    next hall =>
      cases hs
      refine h.served (Grown.arrives hall) ?_
      refine pairwise_append.mpr ⟨h.ascending b, pairwise_singleton _ _, ?_⟩
      rintro other hother _ ⟨⟩
      · exact hall other hother
      next hin => exact absurd hin not_mem_nil
    next => exact nomatch hs
  | elsewhere b n =>
    cases hs
    exact h.served Grown.confirm (h.ascending b)
  | tick | set_token token | set_link link =>
    cases hs
    exact ⟨h.ascending, h.descending, h.source, h.record, h.pump⟩
  | restart =>
    cases hs
    exact ⟨h.ascending, h.descending, h.source, h.record, trivial⟩
  | token =>
    obtain ⟨b, -, rfl⟩ := map_eq_some_iff.mp hs
    exact ⟨h.ascending, h.descending, h.source, h.record, h.pump⟩
  | touch =>
    cases hs
    exact ⟨h.ascending, h.descending, h.source, fun b hb => h.pruned hk hb, h.pump⟩
  | start b =>
    obtain ⟨hb, hmine, hr⟩ := hk
    rw [Telegram.step] at hs
    split at hs
    · split at hs
      · cases hs
        -- a new pump takes for handled what the record says
        exact ⟨h.ascending, h.descending, h.source, h.record, hmine, h.pruned hr hb⟩
      · exact nomatch hs
    · exact nomatch hs
  | asks =>
    rw [Telegram.step] at hs
    split at hs
    next b offset handled hp =>
      cases hs
      -- the server drops what the offset confirms
      have hserved := h.served (v := (s.server b).confirm offset) Grown.confirm (h.ascending b)
      have hread := hserved.pump
      rw [show (s.serve b _).pump = _ from hp] at hread
      exact ⟨hserved.ascending, h.descending, h.source, hserved.record, hread⟩
    next => exact nomatch hs
  | answer n =>
    rw [Telegram.step] at hs
    split at hs
    next b offset handled hp =>
      have hread := h.pump
      rw [hp] at hread
      dsimp only at hs
      split at hs
      · cases hs
        exact ⟨h.ascending, h.descending, h.source, h.record, trivial⟩
      next hfilled =>
        cases hs
        exact ⟨h.ascending, h.descending, h.source, h.record, hread.1,
          hread.2.answered (h.ascending b) hfilled⟩
    next => exact nomatch hs
  | fails =>
    rw [Telegram.step] at hs
    split at hs
    · cases hs
      exact ⟨h.ascending, h.descending, h.source, h.record, trivial⟩
    · cases hs
      exact ⟨h.ascending, h.descending, h.source, h.record, trivial⟩
    · exact nomatch hs
  | handle seen =>
    rw [Telegram.step] at hs
    split at hs
    next b handled ids id todo done hp =>
      cases hs
      exact h.handled hp
    next => exact nomatch hs
  | next =>
    rw [Telegram.step] at hs
    split at hs
    next b handled ids done hp =>
      refine h.ended hp ?_
      rw [Telegram.step, hp]
      exact hs
    next => exact nomatch hs
  | write saved =>
    obtain ⟨hbot, hr⟩ := hk
    cases hp : s.pump with
    | writes b next done => exact h.written hp (hbot b next done hp) hr hs
    | idle | asks b offset handled | asked b offset handled | handles b handled ids todo done =>
      rw [Telegram.step, hp] at hs; exact nomatch hs

theorem inv_reachable (h : Reachable (reader.when Kept) s) : Inv s := by
  induction h with
  | start h0 =>
    obtain ⟨hasc, hrecord, hheld, -, hpump, haccount⟩ := h0
    refine ⟨hasc, fun b => ?_, fun b => ?_, fun b hb => ?_, ?_⟩
    · rw [haccount]
      exact List.Pairwise.nil
    · rw [haccount]
      exact fun e he => absurd he not_mem_nil
    · rw [hrecord] at hb
      exact nomatch hb
    · rw [hpump]
      trivial
  | next _ hs ih => exact ih.step hs.1 hs.2

/-- In a run that keeps each bot's progress apart, the offsets stored for a bot grow and are
its own, whatever an offset stored or asked for is to confirm was handed on and has waited
where it was to, and nothing that was recorded is handed on again. -/
theorem dealt_with_before_confirmed (h : Reachable (reader.when Kept) s) (b : β) :
    (s.account b).stored.Pairwise (fun e e' => e'.1 ≤ e.1) ∧
    (∀ e ∈ (s.account b).stored, e.2 = b) ∧
    (∀ n, s.record.bot = some b ∧ s.record.offset = some n ∨
        (∃ handled, s.pump = .asks b (some n) handled) →
      (n, b) ∈ (s.account b).stored ∧
      ∀ id ∈ (s.server b).updates, (s.server b).confirmed ≤ id → id < n →
        Ready (s.account b) id) ∧
    ∀ handled ids id todo done, s.pump = .handles b handled ids (id :: todo) done →
      id ∉ (s.account b).recorded := by
  have hinv := inv_reachable h
  have hoffset : ∀ n handled, Progress (s.server b) (s.account b) (some n) handled →
      (n, b) ∈ (s.account b).stored ∧
      ∀ id ∈ (s.server b).updates, (s.server b).confirmed ≤ id → id < n →
        Ready (s.account b) id := by
    intro n handled hp
    obtain ⟨c, hc⟩ := hp.last n rfl
    obtain rfl : c = b := hinv.source b _ hc
    exact ⟨hc, hp.passed n rfl⟩
  refine ⟨hinv.descending b, hinv.source b, ?_, fun handled ids id todo done hp => ?_⟩
  · rintro n (⟨hb, hn⟩ | ⟨handled, hp⟩)
    · have hrecord := hinv.record b hb
      rw [hn] at hrecord
      exact hoffset n _ hrecord
    · have hread := hinv.pump
      rw [hp] at hread
      exact hoffset n handled hread.2
  · have hread := hinv.pump
    rw [hp] at hread
    exact (hread.2.fresh id mem_cons_self).2

end

/-! ## Two bots -/

/-- Both bots have updates and nothing was read yet. -/
def two_bots : State Bool :=
  { server := fun b => if b then ⟨[5, 6], 0⟩ else ⟨[3], 0⟩
    token := some true, link := some (some true), record := ⟨none, none, []⟩, held := [], now := 0
    waiting := [], pump := .idle, account := fun _ => ⟨[], [], [], [], []⟩ }

theorem two_bots_init : reader.init two_bots := by
  refine ⟨fun b => ?_, rfl, rfl, rfl, rfl, fun b => rfl⟩
  cases b <;> decide

/-- What is left of a read of both updates of `true` once it started, up to the write. -/
def read_both : List (Event Bool) :=
  [.asks, .answer 100, .handle .Other, .handle .Other, .next]

theorem renewed_of_nothing {s : State Bool}
    (h : ∀ b, (s.account b).recorded = [] ∧ (s.account b).stored = []) : Renewed s := by
  intro b _ _
  rw [(h b).1, (h b).2]
  exact ⟨fun _ hid => absurd hid not_mem_nil, fun _ he => absurd he not_mem_nil⟩

theorem two_bots_waiting : Reachable (reader.when Kept) { two_bots with waiting := [true] } :=
  have htoken : Kept two_bots .token := trivial
  Reachable.next (.start two_bots_init) ⟨htoken, (rfl : step two_bots .token = some _)⟩

theorem two_bots_asks : Reachable (reader.when Kept) { two_bots with pump := .asks true none [] } :=
  have hstart : Kept { two_bots with waiting := [true] } (.start true) :=
    ⟨rfl, fun _ hmem => absurd hmem not_mem_nil, renewed_of_nothing fun _ => ⟨rfl, rfl⟩⟩
  two_bots_waiting.next ⟨hstart, (rfl : step _ (.start true) = some _)⟩

theorem dealt_with_before_confirmed_both :
    ∃ s : State Bool, s.record.offset = some 7 ∧ (s.account true).recorded = [5, 6] ∧
      (7, true) ∈ (s.account true).stored ∧
      ∀ id ∈ (s.server true).updates, (s.server true).confirmed ≤ id → id < 7 →
        Ready (s.account true) id := by
  obtain ⟨s, hs, hwrite⟩ : ∃ s, read_both.foldlM step
      { two_bots with pump := .asks true none [] } = some s ∧ Kept s (.write true) := by
    refine ⟨_, rfl, fun b next done hp => ?_, renewed_of_nothing fun b => ?_⟩
    · cases hp
      rfl
    · cases b <;> exact ⟨rfl, rfl⟩
  have hread : Reachable (reader.when Kept) s := by
    refine two_bots_asks.run_when (fun _ _ _ hs => hs) (fun e he s => ?_) hs
    fin_cases he <;> exact trivial
  obtain ⟨s', hs', hbot, hn, hrecorded⟩ : ∃ s', step s (.write true) = some s' ∧
      s'.record.bot = some true ∧ s'.record.offset = some 7 ∧
      (s'.account true).recorded = [5, 6] := by
    cases hs
    exact ⟨_, rfl, rfl, rfl, rfl⟩
  obtain ⟨-, -, hoffset, -⟩ := dealt_with_before_confirmed (hread.next ⟨hwrite, hs'⟩) true
  exact ⟨s', hn, hrecorded, hoffset 7 (Or.inl ⟨hbot, hn⟩)⟩

/-- The other bot is linked while the offset is on its way into the record, and then read. -/
def linked_meanwhile : List (Event Bool) :=
  [.token, .start true] ++ read_both ++
    [.set_token (some false), .set_link (some (some false)), .write true, .token, .start false,
      .asks]

/-- The offset of the one bot is stored for the other, and confirms an update of it that was
never handed on. -/
theorem offset_of_another_bot :
    ∃ s : State Bool, Reachable reader s ∧ (7, true) ∈ (s.account false).stored ∧
      3 ∈ (s.server false).updates ∧ (s.server false).confirmed = 7 ∧
      (s.account false).verdicts = [] :=
  ⟨_, (Reachable.start two_bots_init).run (fun _ _ _ hs => hs)
    (rfl : linked_meanwhile.foldlM step two_bots = some _),
    mem_cons_self, mem_cons_self, rfl, rfl⟩

end Lpm.Telegram
