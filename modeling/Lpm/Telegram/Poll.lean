/-
Reading the bot's updates: where the reading got to, and who is asked for what.

One read at a time asks Telegram for a batch from the stored offset, hands on what it has
not dealt with and stores where to go on. An update for a question another computer posted
is held back for two minutes, so the offset stops before it and what came after it is kept
in a list. The token, the link that names the bot, and the record with the offset are three
things, and each may change between the steps of a read. Of the record only the reading is
here, not the questions that were posted.

What a bot has of its own, `Account`, is kept for the account of a run: the program stores
one record, whichever bot it is of.
-/
import Mathlib.Algebra.Order.Ring.Int
import Lpm.Lib.Transition
import Mathlib.Data.List.Dedup
import Mathlib.Data.List.Sort

set_option autoImplicit false

open Transition

namespace Lpm.Telegram

open List

/-- In nanoseconds. -/
def FOREIGN_GRACE : Nat := 120 * 10 ^ 9

def MAX_HELD : Nat := 10

inductive Seen where
  | Handled
  | Foreign
  | Other
  deriving DecidableEq

/-- Where reading the updates of a bot got to. -/
structure Record (β : Type) where
  bot : Option β
  offset : Option Int
  handled : List Int
  deriving DecidableEq

/-- An update held back. Its bot is kept for the account: the program keys them by number. -/
structure Held (β : Type) where
  id : Int
  since : Nat
  bot : β

/-- What Telegram has for a bot: its updates in ascending order, and how far they were
confirmed. -/
structure Server where
  updates : List Int
  confirmed : Int

/-- What became of a bot's updates: the verdicts, the last one first, those recorded as
handled, the offsets stored, the last one first, each with the bot it came from, those held
for the grace, and those that came while `MAX_HELD` others were held. -/
structure Account (β : Type) where
  verdicts : List (Int × Seen)
  recorded : List Int
  stored : List (Int × β)
  waited : List Int
  crowded : List Int

/-- Where the one read stands. -/
inductive Pump (β : Type) where
  | idle
  | asks (b : β) (offset : Option Int) (handled : List Int)
  | asked (b : β) (offset : Option Int) (handled : List Int)
  | handles (b : β) (handled ids todo done : List Int)
  | writes (b : β) (next : Option Int) (done : List Int)

structure State (β : Type) where
  server : β → Server
  token : Option β
  /-- The bot of the link, or none where there is no link to read. -/
  link : Option (Option β)
  record : Record β
  held : List (Held β)
  now : Nat
  /-- The tokens of those who are about to read. -/
  waiting : List β
  pump : Pump β
  account : β → Account β

inductive Event (β : Type) where
  | arrives (b : β) (id : Int)
  /-- Another computer reads the bot. -/
  | elsewhere (b : β) (n : Int)
  | tick
  | set_token (token : Option β)
  | set_link (link : Option (Option β))
  | restart
  | token
  /-- Somebody else changes the questions in the record, and that is saved. -/
  | touch
  | start (b : β)
  | asks
  | answer (n : Nat)
  | fails
  | handle (seen : Seen)
  | next
  | write (saved : Bool)

variable {β : Type} [DecidableEq β]

/-- Another bot's record is dropped; a link that cannot be read proves nothing. -/
def Record.prune (link : Option (Option β)) (r : Record β) : Record β :=
  match link with
  | none => r
  | some bot => if r.bot ≠ bot then { bot, offset := none, handled := [] } else r

variable (s : State β)

/-- `with`: the record is written where it was changed, not where it was only pruned. -/
def State.with_ (saved : Bool) (f : Record β → Record β) : State β :=
  let found := s.record.prune s.link
  if f found ≠ found ∧ saved = true then { s with record := f found } else s

def waits (held : List (Held β)) (now : Nat) (id : Int) : Bool :=
  match held.find? (·.id = id) with
  | some h => now - h.since < FOREIGN_GRACE
  | none => false

def next_offset (ids : List Int) (held : List (Held β)) (now : Nat) : Option Int :=
  (ids.filter (waits held now)).min?.or (ids.max?.map (· + 1))

/-- What the end of a read makes of the record. -/
def Record.advance (r : Record β) (next : Option Int) (done : List Int) : Record β :=
  let handled := r.handled ++ done
  match next with
  | some next => { r with
      offset := some next
      handled := ((handled.filter (next ≤ ·)).mergeSort (· ≤ ·)).dedup }
  | none => { r with handled := (handled.mergeSort (· ≤ ·)).dedup }

/-- What Telegram has from an offset on. -/
def Server.unconfirmed (v : Server) (offset : Option Int) : List Int :=
  v.updates.filter fun id => decide (v.confirmed ≤ id ∧ ∀ n ∈ offset, n ≤ id)

def Server.confirm (v : Server) (offset : Option Int) : Server :=
  { v with confirmed := offset.elim v.confirmed (max v.confirmed) }

def State.serve (b : β) (v : Server) : State β :=
  { s with server := Function.update s.server b v }

def State.note (b : β) (a : Account β) : State β :=
  { s with account := Function.update s.account b a }

/-- An update was handed on: held back, or done with. -/
def State.handle (b : β) (id : Int) (seen : Seen) : State β × Bool :=
  let a := s.account b
  let a := { a with verdicts := (id, seen) :: a.verdicts }
  let known := s.held.any (·.id = id)
  if seen = .Foreign ∧ (known ∨ s.held.length < MAX_HELD) then
    ({ s.note b a with held := if known then s.held else s.held ++ [⟨id, s.now, b⟩] }, false)
  else
    let others := (s.held.filter (·.bot = b)).length
    let crowded := if seen = .Foreign ∧ MAX_HELD ≤ others then id :: a.crowded else a.crowded
    (s.note b { a with crowded }, true)

def step : Event β → Option (State β)
  | .arrives b id =>
    let v := s.server b
    if ∀ other ∈ v.updates, other < id then
      some (s.serve b { v with updates := v.updates ++ [id] })
    else none
  | .elsewhere b n => some (s.serve b ((s.server b).confirm (some n)))
  | .tick => some { s with now := s.now + 1 }
  | .set_token token => some { s with token }
  | .set_link link => some { s with link }
  | .restart => some { s with held := [], waiting := [], pump := .idle }
  | .token => s.token.map fun b => { s with waiting := b :: s.waiting }
  | .touch => some { s with record := s.record.prune s.link }
  | .start b =>
    match s.pump with
    | .idle =>
      if b ∈ s.waiting then
        let found := s.record.prune s.link
        some { s with
          waiting := s.waiting.erase b, pump := .asks b found.offset found.handled }
      else none
    | _ => none
  | .asks =>
    match s.pump with
    | .asks b offset handled =>
      some { s.serve b ((s.server b).confirm offset) with pump := .asked b offset handled }
    | _ => none
  | .answer n =>
    match s.pump with
    | .asked b offset handled =>
      let ids := ((s.server b).unconfirmed offset).take n
      if ids = [] then some { s with pump := .idle }
      else some { s with pump := .handles b handled ids (ids.filter (· ∉ handled)) [] }
    | _ => none
  | .fails =>
    match s.pump with
    | .asks _ _ _ => some { s with pump := .idle }
    | .asked _ _ _ => some { s with pump := .idle }
    | _ => none
  | .handle seen =>
    match s.pump with
    | .handles b handled ids (id :: todo) done =>
      let (s', «over») := s.handle b id seen
      some { s' with pump := .handles b handled ids todo (if «over» then done ++ [id] else done) }
    | _ => none
  | .next =>
    match s.pump with
    | .handles b _ ids [] done =>
      let next := next_offset ids s.held s.now
      let a := s.account b
      let aged := s.held.filter fun h => decide (h.bot = b ∧ FOREIGN_GRACE ≤ s.now - h.since)
      some { s.note b { a with waited := aged.map Held.id ++ a.waited } with
        held := s.held.filter fun h => decide (∀ n ∈ next, n ≤ h.id)
        pump := .writes b next done }
    | _ => none
  | .write saved =>
    match s.pump with
    | .writes b next done =>
      let s' := { s.with_ saved (·.advance next done) with pump := .idle }
      -- whichever bot the record is of by now has it stored
      match saved, s'.record.bot, next with
      | true, some c, some n =>
        let a := s'.account c
        some (s'.note c { a with recorded := done ++ a.recorded, stored := (n, b) :: a.stored })
      | _, _, _ => some s'
    | _ => none

/-- A new install, over whatever Telegram has. -/
def reader : System (State β) (Event β) where
  init s := (∀ b, (s.server b).updates.Pairwise (· < ·)) ∧ s.record = ⟨none, none, []⟩ ∧
    s.held = [] ∧ s.waiting = [] ∧ s.pump = .idle ∧ ∀ b, s.account b = ⟨[], [], [], [], []⟩
  step s e s' := step s e = some s'

/-- A record that is begun anew for a bot leaves nothing behind that is still to be
confirmed: what was recorded for that bot before is confirmed, and so is all below the
offsets stored for it. -/
def Renewed : Prop :=
  ∀ b, s.record.bot ≠ some b → (s.record.prune s.link).bot = some b →
    (∀ id ∈ (s.account b).recorded, id < (s.server b).confirmed) ∧
    ∀ e ∈ (s.account b).stored, e.1 ≤ (s.server b).confirmed

/-- A read starts and ends with the record of the bot it reads, and starts with no other
bot's updates held back; and no progress of a bot is dropped before it is confirmed. -/
def Kept : Event β → Prop
  | .touch => Renewed s
  | .start b => (s.record.prune s.link).bot = some b ∧ (∀ h ∈ s.held, h.bot = b) ∧ Renewed s
  | .write _ => (∀ b next done, s.pump = .writes b next done →
      (s.record.prune s.link).bot = some b) ∧ Renewed s
  | _ => True

/-! ## What the reading of a bot rests on

Between its steps, the offset divides a bot's updates: those below it and not confirmed yet were all handed on
(`Progress.passed`), those recorded as handled lie below it or in the list
(`Progress.recorded`). A batch is a run of updates from the offset on, so whatever lies
below the end of it was passed before or stands in it (`Handling.before`). -/

variable {β : Type}

/-- It was handed on and, if last to another computer, was not to wait. -/
def Dealt (a : Account β) (id : Int) : Prop :=
  ∃ seen, a.verdicts.lookup id = some seen ∧ (seen = .Foreign → id ∈ a.crowded)

/-- It was handed on and has waited if it was to. -/
def Ready (a : Account β) (id : Int) : Prop :=
  ∃ seen, a.verdicts.lookup id = some seen ∧
    (seen = .Foreign → id ∈ a.waited ∨ id ∈ a.crowded)

/-- What an offset and a list of handled updates say of a bot. -/
structure Progress (v : Server) (a : Account β) (offset : Option Int) (handled : List Int) :
    Prop where
  recorded : ∀ id ∈ a.recorded, id < v.confirmed ∨ id ∈ handled ∨ ∃ n ∈ offset, id < n
  dealt : ∀ id ∈ handled, id ∈ a.recorded ∧ Dealt a id
  stored : ∀ e ∈ a.stored, e.1 ≤ v.confirmed ∨ ∃ n ∈ offset, e.1 ≤ n
  last : ∀ n ∈ offset, ∃ b, (n, b) ∈ a.stored
  passed : ∀ n ∈ offset, ∀ id ∈ v.updates, v.confirmed ≤ id → id < n → Ready a id
  bound : ∀ n ∈ offset, ∃ m ∈ v.updates, n ≤ m + 1

/-- What holds while a batch is handed on. -/
structure Handling (v : Server) (a : Account β) (held : List (Held β))
    (ids todo done : List Int) : Prop where
  filled : ids ≠ []
  subset : ids ⊆ v.updates
  before : ∀ id ∈ v.updates, v.confirmed ≤ id → id ∉ ids → (∀ l ∈ ids, l < id) ∨ Ready a id
  stored : ∀ e ∈ a.stored, ∀ id ∈ ids, e.1 ≤ id
  fresh : ∀ id ∈ todo, id ∈ ids ∧ id ∉ a.recorded
  nodup : todo.Nodup
  seen : ∀ id ∈ ids, id ∈ todo ∨ Dealt a id ∨
    (∃ h ∈ held, h.id = id) ∧ ∃ seen, a.verdicts.lookup id = some seen
  done : ∀ id ∈ done, id ∈ ids ∧ id ∉ todo ∧ Dealt a id

/-- What holds of the offset that is to be stored. -/
structure Writing (v : Server) (a : Account β) (next : Option Int) (done : List Int) : Prop where
  isSome : next.isSome
  done : ∀ id ∈ done, Dealt a id
  stored : ∀ e ∈ a.stored, ∀ n ∈ next, e.1 ≤ n
  passed : ∀ n ∈ next, ∀ id ∈ v.updates, v.confirmed ≤ id → id < n → Ready a id
  bound : ∀ n ∈ next, ∃ m ∈ v.updates, n ≤ m + 1

/-! ## Telegram hears of more, and confirms more -/

structure Grown (v v' : Server) : Prop where
  confirmed : v.confirmed ≤ v'.confirmed
  old : v.updates ⊆ v'.updates
  new : ∀ id ∈ v'.updates, id ∈ v.updates ∨ ∀ other ∈ v.updates, other < id

section
variable {v v' : Server} {a : Account β} {offset next : Option Int} {handled ids todo done : List Int}
variable {held : List (Held β)}

theorem Grown.confirm : Grown v (v.confirm offset) := by
  refine ⟨?_, List.Subset.refl _, fun id h => Or.inl h⟩
  cases offset with
  | none => exact le_refl _
  | some n => exact le_max_left _ _

theorem Grown.arrives {id : Int} (h : ∀ other ∈ v.updates, other < id) :
    Grown v { v with updates := v.updates ++ [id] } := by
  refine ⟨le_refl _, subset_append_left _ _, fun id' hid' => ?_⟩
  rcases mem_append.mp hid' with hold | hnew
  · exact Or.inl hold
  · obtain rfl := mem_singleton.mp hnew
    exact Or.inr h

/-- Below an offset nothing new arrives. -/
theorem Grown.passed (hg : Grown v v') {n : Int} {P : Int → Prop}
    (hbound : ∃ m ∈ v.updates, n ≤ m + 1)
    (h : ∀ id ∈ v.updates, v.confirmed ≤ id → id < n → P id) :
    ∀ id ∈ v'.updates, v'.confirmed ≤ id → id < n → P id := by
  intro id hid hconfirmed hlt
  rcases hg.new id hid with hold | hnew
  · exact h id hold (le_trans hg.confirmed hconfirmed) hlt
  · obtain ⟨m, hm, hn⟩ := hbound
    have := hnew m hm
    omega

theorem Progress.grown (h : Progress v a offset handled) (hg : Grown v v') :
    Progress v' a offset handled where
  recorded id hid := (h.recorded id hid).imp_left fun hlt => lt_of_lt_of_le hlt hg.confirmed
  dealt := h.dealt
  stored e he := (h.stored e he).imp_left fun hle => le_trans hle hg.confirmed
  last := h.last
  passed n hn := hg.passed (h.bound n hn) (h.passed n hn)
  bound n hn := by
    obtain ⟨m, hm, hle⟩ := h.bound n hn
    exact ⟨m, hg.old hm, hle⟩

theorem Handling.grown (h : Handling v a held ids todo done) (hg : Grown v v') :
    Handling v' a held ids todo done where
  filled := h.filled
  subset _ hid := hg.old (h.subset hid)
  before id hid hconfirmed hnot := by
    rcases hg.new id hid with hold | hnew
    · exact h.before id hold (le_trans hg.confirmed hconfirmed) hnot
    · exact Or.inl fun l hl => hnew l (h.subset hl)
  stored := h.stored
  fresh := h.fresh
  nodup := h.nodup
  seen := h.seen
  done := h.done

theorem Writing.grown (h : Writing v a next done) (hg : Grown v v') : Writing v' a next done where
  isSome := h.isSome
  done := h.done
  stored := h.stored
  passed n hn := hg.passed (h.bound n hn) (h.passed n hn)
  bound n hn := by
    obtain ⟨m, hm, hle⟩ := h.bound n hn
    exact ⟨m, hg.old hm, hle⟩

/-! ## An update is handed on -/

/-- The verdict on one update, and perhaps its having come to a crowd, is all that changes. -/
structure Noted (a a' : Account β) (id : Int) (seen : Seen) : Prop where
  verdicts : a'.verdicts = (id, seen) :: a.verdicts
  crowded : a.crowded ⊆ a'.crowded
  recorded : a'.recorded = a.recorded
  stored : a'.stored = a.stored
  waited : a'.waited = a.waited

variable {a' : Account β} {id : Int} {seen : Seen}

variable (h : Noted a a' id seen)
include h

theorem Noted.lookup_self : a'.verdicts.lookup id = some seen := by
  rw [h.verdicts, lookup_cons_self]

theorem Noted.lookup_other {id' : Int} (hne : id' ≠ id) :
    a'.verdicts.lookup id' = a.verdicts.lookup id' := by
  have hbeq : (id' == id) = false := beq_eq_false_iff_ne.mpr hne
  rw [h.verdicts, lookup_cons, hbeq]

theorem Noted.dealt {id' : Int} (hne : id' ≠ id) (hd : Dealt a id') :
    Dealt a' id' := by
  obtain ⟨seen', hseen, hforeign⟩ := hd
  exact ⟨seen', (h.lookup_other hne).trans hseen, fun hf => h.crowded (hforeign hf)⟩

theorem Noted.ready {id' : Int} (hne : id' ≠ id) (hr : Ready a id') :
    Ready a' id' := by
  obtain ⟨seen', hseen, hforeign⟩ := hr
  refine ⟨seen', (h.lookup_other hne).trans hseen, fun hf => ?_⟩
  exact (hforeign hf).imp (fun hw => by rwa [h.waited]) fun hc => h.crowded hc

omit h

/-- Progress does not depend on an update that is neither recorded nor below what was
stored. -/
theorem Progress.noted (h : Progress v a offset handled) (hn : Noted a a' id seen)
    (hrecorded : id ∉ a.recorded) (hstored : ∀ e ∈ a.stored, e.1 ≤ id) :
    Progress v a' offset handled where
  recorded := by rw [hn.recorded]; exact h.recorded
  dealt id' hid' := by
    obtain ⟨hrec, hdealt⟩ := h.dealt id' hid'
    rw [hn.recorded]
    exact ⟨hrec, hn.dealt (fun he => hrecorded (he ▸ hrec)) hdealt⟩
  stored := by rw [hn.stored]; exact h.stored
  last := by rw [hn.stored]; exact h.last
  passed n hoffset id' hid' hconfirmed hlt := by
    obtain ⟨b, hlast⟩ := h.last n hoffset
    have hle : n ≤ id := hstored _ hlast
    exact hn.ready (by omega) (h.passed n hoffset id' hid' hconfirmed hlt)
  bound := h.bound

/-- The next update of a batch: held back, or done with. -/
theorem Handling.noted {held' : List (Held β)} {«over» : Bool}
    (h : Handling v a held ids (id :: todo) done) (hn : Noted a a' id seen) (hheld : held ⊆ held')
    (hover : if «over» then Dealt a' id else ∃ e ∈ held', e.id = id) :
    Handling v a' held' ids todo (if «over» then done ++ [id] else done) := by
  obtain ⟨hhead, hnodup⟩ := nodup_cons.mp h.nodup
  obtain ⟨hmem, -⟩ := h.fresh id mem_cons_self
  have hdone : ∀ id' ∈ done, id' ∈ ids ∧ id' ∉ todo ∧ Dealt a' id' := by
    intro id' hid'
    obtain ⟨hin, hnot, hdealt⟩ := h.done id' hid'
    refine ⟨hin, fun ht => hnot (mem_cons_of_mem _ ht), hn.dealt ?_ hdealt⟩
    rintro rfl
    exact hnot mem_cons_self
  refine ⟨h.filled, h.subset, fun id' hid' hconfirmed hnot => ?_, ?_, fun id' hid' => ?_, hnodup,
    fun id' hid' => ?_, ?_⟩
  · refine (h.before id' hid' hconfirmed hnot).imp_right fun hr => hn.ready ?_ hr
    rintro rfl
    exact hnot hmem
  · rw [hn.stored]
    exact h.stored
  · rw [hn.recorded]
    exact h.fresh id' (mem_cons_of_mem _ hid')
  · by_cases he : id' = id
    -- the update just handled is over or held, and the others keep their state
    · subst he
      right
      cases «over» with
      | true => exact Or.inl hover
      | false => exact Or.inr ⟨hover, seen, hn.lookup_self⟩
    · rcases h.seen id' hid' with ht | hdealt | ⟨⟨e, hin, hid⟩, hverdict⟩
      · exact Or.inl ((mem_cons.mp ht).resolve_left he)
      · exact Or.inr (Or.inl (hn.dealt he hdealt))
      · refine Or.inr (Or.inr ⟨⟨e, hheld hin, hid⟩, ?_⟩)
        rwa [hn.lookup_other he]
  · cases «over» with
    | false => exact hdone
    | true =>
      intro id' hid'
      rcases mem_append.mp hid' with hold | hnew
      · exact hdone id' hold
      · obtain rfl := mem_singleton.mp hnew
        exact ⟨hmem, hhead, hover⟩

/-! ## A batch comes in -/

theorem mem_unconfirmed : id ∈ v.unconfirmed offset ↔
    id ∈ v.updates ∧ v.confirmed ≤ id ∧ ∀ n ∈ offset, n ≤ id := by
  rw [Server.unconfirmed, mem_filter, decide_eq_true_iff]

theorem Progress.answered (h : Progress v a offset handled) (hasc : v.updates.Pairwise (· < ·))
    {n : Nat} (hfilled : (v.unconfirmed offset).take n ≠ []) :
    Handling v a held ((v.unconfirmed offset).take n)
      (((v.unconfirmed offset).take n).filter (· ∉ handled)) [] := by
  have hsorted : (v.unconfirmed offset).Pairwise (· < ·) := hasc.filter _
  have hids : ∀ id ∈ (v.unconfirmed offset).take n,
      id ∈ v.updates ∧ v.confirmed ≤ id ∧ ∀ n ∈ offset, n ≤ id := fun id hid =>
    mem_unconfirmed.mp (mem_of_mem_take hid)
  refine ⟨hfilled, fun id hid => (hids id hid).1, fun id hid hconfirmed hnot => ?_,
    fun e he id hid => ?_, fun id hid => ?_, ?_, fun id hid => ?_, fun id hid => ?_⟩
  · by_cases hlt : ∃ m ∈ offset, id < m
    · obtain ⟨m, hm, hlt⟩ := hlt
      exact Or.inr (h.passed m hm id hid hconfirmed hlt)
    · left
      -- an update that was not asked for comes later than all that were
      have hall : id ∈ v.unconfirmed offset :=
        mem_unconfirmed.mpr ⟨hid, hconfirmed, fun m hm => not_lt.mp fun hl => hlt ⟨m, hm, hl⟩⟩
      rw [← take_append_drop n (v.unconfirmed offset)] at hall hsorted
      have hdrop := (mem_append.mp hall).resolve_left hnot
      exact fun l hl => (pairwise_append.mp hsorted).2.2 l hl id hdrop
  · obtain ⟨-, hconfirmed, hoffset⟩ := hids id hid
    rcases h.stored e he with hle | ⟨m, hm, hle⟩
    · exact le_trans hle hconfirmed
    · exact le_trans hle (hoffset m hm)
  · obtain ⟨hmem, hnew⟩ := mem_filter.mp hid
    obtain ⟨-, hconfirmed, hoffset⟩ := hids id hmem
    refine ⟨hmem, fun hrec => ?_⟩
    rcases h.recorded id hrec with hlt | hin | ⟨m, hm, hlt⟩
    · omega
    · exact of_decide_eq_true hnew hin
    · have := hoffset m hm
      omega
  · have hnodup : (v.unconfirmed offset).Nodup := hsorted.imp fun hlt => ne_of_lt hlt
    exact (hnodup.sublist (take_sublist _ _)).filter _
  · by_cases hin : id ∈ handled
    · exact Or.inr (Or.inl (h.dealt id hin).2)
    · exact Or.inl (mem_filter.mpr ⟨hid, decide_eq_true hin⟩)
  · exact absurd hid not_mem_nil

end

end Lpm.Telegram
