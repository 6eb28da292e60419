/-
What the surfaces of one machine know, where each change is told before the next one is made.

`latest` is what the messages of a queue come to: it serves both directions of a connection, whose
ends are compared in `Lpm.Control.Agree`.
-/
import Lpm.Control.Machines

set_option autoImplicit false

open RustText Transition

namespace Lpm.Control

open List

/-! ## The last of the frames on their way -/

section
variable {α β : Type*} {f : β → α} {a : α} {x : β} {q r : List β}

/-- What is in force once the messages of a queue have arrived, each in the place of what was. -/
def latest (f : β → α) (a : α) (q : List β) : α := q.foldl (fun _ x => f x) a

@[simp] theorem latest_cons : latest f a (x :: q) = latest f (f x) q := rfl

theorem latest_append : latest f a (q ++ r) = latest f (latest f a q) r := foldl_append

theorem latest_concat : latest f a (q ++ [x]) = f x := latest_append

theorem latest_const (h : ∀ x ∈ q, f x = a) : latest f a q = a := by
  induction q with
  | nil => rfl
  | cons x q ih =>
    rw [latest_cons, h x mem_cons_self]
    exact ih fun y hy => h y (mem_cons_of_mem x hy)

/-- What was there before does not matter behind a message. -/
theorem latest_of_ne_nil (h : q ≠ []) (b : α) : latest f a q = latest f b q := by
  obtain ⟨x, rest, rfl⟩ := exists_cons_of_ne_nil h
  rfl

end

/-! ## One machine -/

/-- What the surfaces know once everything is told. -/
def Machine.settled (m : Machine) : Key → Option Owner := m.todo.foldl (fun told task => task.tells told) m.told

structure Machine.Ok (m : Machine) : Prop where
  few : m.todo.length ≤ 1
  /-- What is to be told is so. -/
  fresh : ∀ task ∈ m.todo, task.owner.map Owner.key = m.shown.holder
  told : ∀ k ∈ m.shown.keys, k.1 ≠ .peer → (m.settled k).map Owner.key = m.shown.holder

section
variable {m : Machine} {task : Task} {shown : Shown} {who : Owner} {op : Op} {k : Key} {told : Key → Option Owner}

theorem tells_eq : (task.tells told k).map Owner.key =
    if task.changed = true ∨ task.answer.map Owner.key = some k then task.owner.map Owner.key
    else (told k).map Owner.key := by
  unfold Task.tells
  cases task.answer with
  | none =>
    cases task.changed <;> simp
  | some who =>
    by_cases hk : k = who.key
    · subst hk
      simp
    · have hk' : who.key ≠ k := fun h => hk h.symm
      cases task.changed <;> simp [Function.update_of_ne hk, hk']

variable (h : m.Ok)
include h

/-- A change that is told to those it concerns. -/
theorem Machine.Ok.change (htodo : m.todo = []) (howner : task.owner.map Owner.key = shown.holder)
    (hchanged : task.changed = true ↔ m.shown.holder ≠ shown.holder)
    (hkeys : ∀ k ∈ shown.keys, k.1 ≠ .peer → k ∈ m.shown.keys ∨ task.answer.map Owner.key = some k) :
    Machine.Ok { m with shown, todo := m.todo ++ [task] } := by
  rw [htodo, nil_append]
  refine ⟨Nat.le_refl 1, fun task' ht => by rw [mem_singleton.mp ht]; exact howner, fun k hk hlocal => ?_⟩
  change (task.tells m.told k).map Owner.key = shown.holder
  rw [tells_eq]
  split
  next => exact howner
  next hnot =>
    -- nothing is told, so the owner is the same and the surface was there
    have hsame : m.shown.holder = shown.holder := not_not.mp fun hne => hnot (Or.inl (hchanged.mpr hne))
    have hold := (hkeys k hk hlocal).resolve_right fun ha => hnot (Or.inr ha)
    have htold := h.told k hold hlocal
    rw [Machine.settled, htodo] at htold
    rw [← hsame]
    exact htold

/-- A change of which nothing is told. -/
theorem Machine.Ok.same (hsame : m.shown.holder = shown.holder)
    (hkeys : ∀ k ∈ shown.keys, k ∈ m.shown.keys) : Machine.Ok { m with shown } := by
  refine ⟨h.few, fun task ht => ?_, fun k hk hlocal => ?_⟩
  · rw [← show m.shown.holder = Shown.holder shown from hsame]
    exact h.fresh task ht
  · rw [← show m.shown.holder = Shown.holder shown from hsame]
    exact h.told k (hkeys k hk) hlocal

theorem Machine.Ok.command (htodo : m.todo = []) (op : Op) (who : Owner) : (m.command op who).Ok := by
  refine h.change htodo Shown.apply_owner Shown.apply_changed fun k hk _ => ?_
  rcases Shown.mem_apply_keys.mp hk with ⟨-, hold⟩ | ⟨hop, rfl⟩
  · exact Or.inl hold
  · right
    change (if op = .unpresent then none else some who).map Owner.key = _
    rw [if_neg hop]
    rfl

theorem Machine.Ok.ctl (htodo : m.todo = []) (op : Op) (hpeer : who.kind = .peer) (conn : ℕ) :
    (m.ctl op who conn).Ok := by
  refine h.change htodo Shown.apply_owner Shown.apply_changed fun k hk hlocal => ?_
  rcases Shown.mem_apply_keys.mp hk with ⟨-, hold⟩ | ⟨-, rfl⟩
  · exact Or.inl hold
  · exact absurd hpeer hlocal

theorem Machine.Ok.drop_surface (htodo : m.todo = []) (who : Owner) : (m.drop_surface who).Ok := by
  have hkeys : ∀ k ∈ (m.shown.unpresent who).1.keys, k ∈ m.shown.keys := fun k hk => by
    rw [Shown.unpresent_keys] at hk
    exact (mem_filter.mp hk).1
  unfold Machine.drop_surface
  dsimp only
  split
  next hchanged =>
    exact h.change htodo Shown.unpresent_owner Shown.unpresent_changed fun k hk _ => Or.inl (hkeys k hk)
  next hchanged =>
    exact h.same (not_not.mp fun hne => hchanged (Shown.unpresent_changed.mpr hne)) hkeys

theorem Machine.Ok.note_away (htodo : m.todo = []) (elsewhere : Option Str) :
    (m.note_away elsewhere).Ok := by
  unfold Machine.note_away
  dsimp only
  split
  next hchanged =>
    refine h.change htodo Shown.hold_away_owner Shown.hold_away_changed fun k hk _ => ?_
    rw [Shown.hold_away_keys] at hk
    exact Or.inl hk
  next hchanged =>
    refine h.same (not_not.mp fun hne => hchanged (Shown.hold_away_changed.mpr hne)) fun k hk => ?_
    rw [Shown.hold_away_keys] at hk
    exact hk

/-- There is one task at most. -/
theorem Machine.Ok.todo_eq {k : ℕ} (hk : m.todo[k]? = some task) : k = 0 ∧ m.todo = [task] := by
  have hfew := h.few
  match htodo : m.todo, k with
  | [], _ =>
    rw [htodo] at hk
    exact nomatch hk
  | [task'], 0 =>
    rw [htodo] at hk
    exact ⟨rfl, by rw [Option.some.inj hk]⟩
  | [_], k + 1 =>
    rw [htodo] at hk
    exact nomatch hk
  | _ :: _ :: _, _ =>
    rw [htodo] at hfew
    exact absurd hfew (by simp)

theorem Machine.Ok.tells {k : ℕ} (hk : m.todo[k]? = some task) : (m.tells k task).Ok := by
  obtain ⟨rfl, htodo⟩ := h.todo_eq hk
  have htold := h.told
  rw [Machine.settled, htodo] at htold
  have hdone : (m.tells 0 task).todo = [] := by
    change m.todo.eraseIdx 0 = []
    rw [htodo]
    rfl
  refine ⟨by rw [hdone]; exact Nat.zero_le 1, fun task' ht => ?_, fun k hk hlocal => ?_⟩
  · rw [hdone] at ht
    exact absurd ht not_mem_nil
  · rw [Machine.settled, hdone]
    exact htold k hk hlocal

end

/-! ## The host and each Mac

They agree, but for the frames that are on their way between them.

Each direction of a connection is followed by what its last frame will bring about: `latest` of
what the Mac sends says whether it will be taken to show the terminal, and `latest` of what it is
sent whether it will hold the owner to be elsewhere. An operation at one end puts a frame behind
the others that says how things are now (`Side`).

This rests on the steps being `Orderly`. The end of an old connection that is noticed when the new
one has presented the terminal takes from the host what the Mac goes on showing, and no frame is
on its way that would bring it back. -/

/-! ## What a step must not come in between of -/

/-- The frames of a task of a Mac. -/
def Task.sends (task : Task) : List Frame := (task.forward.map Frame.ctl).toList

def Machine.sending (m : Machine) : List Frame := m.todo.flatMap Task.sends

/-- All frames to the host, with those still to be put behind the others. -/
def Term.coming (t : Term) (m : Str) : List Frame := t.up m ++ (t.mac m).sending

variable (s : State)

/-- The condition on a step. Each change is told before the next one is made on that machine. A
terminal is alive when it is presented or claimed; a window shows one that its Mac has attached.
And the end of a connection is noticed before a newer one of that Mac has presented anew what
the Mac shows. -/
def State.Orderly : Event → Prop
  | .host id _ _ => (s.term id).host.todo = []
  | .host_leaves _ => ∀ id, (s.term id).host.todo = []
  | .mac m id op _ => ((s.term id).mac m).todo = [] ∧ (op ≠ .unpresent → s.attached m id = true)
  | .mac_leaves m _ => ∀ id, ((s.term id).mac m).todo = []
  | .handle m id => (s.term id).host.todo = [] ∧
      ∀ op, ((s.term id).up m).head? = some (.ctl op) → op ≠ .unpresent → (s.term id).alive = true
  | .hold m id => ((s.term id).mac m).todo = []
  | .detach m id => ((s.term id).mac m).shown.keys = []
  | .notice m => ∀ id, (s.term id).host.todo = [] ∧ (s.link m ≠ none → ((s.term id).mac m).shown.keys ≠ [] →
      (Kind.peer, m) ∈ (s.term id).host.shown.keys → (s.term id).coming m ≠ [])
  | _ => True

/-! ## One Mac and one terminal -/

/-- The frame makes the host take it that the Mac does not show the terminal. -/
def Frame.leaves : Frame → Bool
  | ctl .unpresent | unsub => true
  | ctl _ => false

/-- What the Mac did. -/
def Frame.asks : Frame → Op
  | ctl op => op
  | unsub => .unpresent

theorem Frame.leaves_iff {frame : Frame} : frame.leaves = true ↔ frame.asks = .unpresent := by
  match frame with
  | .unsub => exact ⟨fun _ => rfl, fun _ => rfl⟩
  | .ctl .unpresent => exact ⟨fun _ => rfl, fun _ => rfl⟩
  | .ctl .present => exact ⟨fun h => (nomatch h), fun h => (nomatch h)⟩
  | .ctl .claim => exact ⟨fun h => (nomatch h), fun h => (nomatch h)⟩

/-- All frames to the Mac, with those still to be put behind the others. -/
def State.arriving (id m : Str) : List (Option Str) :=
  (s.term id).down m ++ (s.term id).host.todo.flatMap (s.frames (s.term id) m)

/-- What the Mac comes to think: that the terminal is not held elsewhere. -/
def State.comes_to_hold (id m : Str) : Bool :=
  latest Option.isNone ((s.term id).mac m).shown.away.isNone (s.arriving id m)

structure Side (s : State) (id m : Str) : Prop where
  idle : s.link m = none → (s.term id).up m = [] ∧ (s.term id).down m = []
  /-- A Mac's frame says whether it shows the terminal. -/
  forwards : ∀ f ∈ ((s.term id).mac m).sending, f.leaves = decide (((s.term id).mac m).shown.keys = [])
  attached : ((s.term id).mac m).shown.keys ≠ [] → s.attached m id = true
  last : s.link m ≠ none → latest Frame.leaves (decide (((s.term id).mac m).shown.keys = [])) ((s.term id).coming m) =
    decide (((s.term id).mac m).shown.keys = [])
  /-- With no frame to come, the host knows whether the Mac shows it. -/
  here : s.link m ≠ none → (s.term id).coming m = [] → ((s.term id).mac m).shown.keys ≠ [] →
    (Kind.peer, m) ∈ (s.term id).host.shown.keys
  left : s.link m ≠ none → (s.term id).coming m = [] → ((s.term id).mac m).shown.keys = [] →
    (Kind.peer, m) ∈ (s.term id).host.shown.keys → 0 < s.ended m
  /-- And the Mac comes to know who the owner is. -/
  away : s.link m ≠ none → (s.term id).coming m = [] → ((s.term id).mac m).shown.keys ≠ [] →
    (s.comes_to_hold id m = true ↔ (s.term id).host.shown.holder = some (Kind.peer, m))
  linked : (Kind.peer, m) ∈ (s.term id).host.shown.keys → s.link m ≠ none ∨ 0 < s.ended m

section
variable {s s' : State} {id m : Str} {task : Task} {who : Owner} {op : Op}

/-- A step that says nothing to the host about the terminal. -/
theorem Side.keep (h : Side s id m) (hlink : s'.link m = s.link m) (hended : s'.ended m = s.ended m)
    (hattached : s.attached m id = true → s'.attached m id = true)
    (hidle : s.link m = none → (s'.term id).up m = (s.term id).up m ∧ (s'.term id).down m = (s.term id).down m)
    (hempty : ((s'.term id).mac m).shown.keys = [] ↔ ((s.term id).mac m).shown.keys = [])
    (hsending : ∀ f ∈ ((s'.term id).mac m).sending, f ∈ ((s.term id).mac m).sending)
    (hcoming : s.link m ≠ none → (s'.term id).coming m = (s.term id).coming m)
    (hhere : (Kind.peer, m) ∈ (s'.term id).host.shown.keys ↔ (Kind.peer, m) ∈ (s.term id).host.shown.keys)
    (haway : s.link m ≠ none → (Kind.peer, m) ∈ (s.term id).host.shown.keys →
      ((s.term id).mac m).shown.keys ≠ [] →
      (s.comes_to_hold id m = true ↔ (s.term id).host.shown.holder = some (Kind.peer, m)) →
      (s'.comes_to_hold id m = true ↔ (s'.term id).host.shown.holder = some (Kind.peer, m))) : Side s' id m := by
  refine ⟨fun hl => ?_, fun f hf => ?_, fun hP => ?_, fun hl => ?_, fun hl hc hP => ?_, fun hl hc hP hm => ?_,
    fun hl hc hP => ?_, fun hm => ?_⟩
  · rw [hlink] at hl
    rw [(hidle hl).1, (hidle hl).2]
    exact h.idle hl
  · rw [h.forwards f (hsending f hf), decide_eq_decide, hempty]
  · exact hattached (h.attached fun hP' => hP (hempty.mpr hP'))
  · rw [hlink] at hl
    rw [hcoming hl, decide_eq_decide.mpr hempty]
    exact h.last hl
  · rw [hlink] at hl
    rw [hcoming hl] at hc
    exact hhere.mpr (h.here hl hc fun hP' => hP (hempty.mpr hP'))
  · rw [hlink] at hl
    rw [hcoming hl] at hc
    rw [hended]
    exact h.left hl hc (hempty.mp hP) (hhere.mp hm)
  · rw [hlink] at hl
    rw [hcoming hl] at hc
    have hP' : ((s.term id).mac m).shown.keys ≠ [] := fun hP' => hP (hempty.mpr hP')
    exact haway hl (h.here hl hc hP') hP' (h.away hl hc hP')
  · rw [hlink, hended]
    exact h.linked (hhere.mp hm)

/-- A step behind which a frame to the host says how things are. -/
theorem Side.says (h : Side s id m) (hlink : s'.link m = s.link m) (hended : s'.ended m = s.ended m)
    (hidle : s.link m = none → (s'.term id).up m = (s.term id).up m ∧ (s'.term id).down m = (s.term id).down m)
    (hforwards : ∀ f ∈ ((s'.term id).mac m).sending, f.leaves = decide (((s'.term id).mac m).shown.keys = []))
    (hattached : ((s'.term id).mac m).shown.keys ≠ [] → s'.attached m id = true)
    (hcoming : s.link m ≠ none → (s'.term id).coming m ≠ [])
    (hlast : s.link m ≠ none → latest Frame.leaves (decide (((s'.term id).mac m).shown.keys = []))
      ((s'.term id).coming m) = decide (((s'.term id).mac m).shown.keys = []))
    (hhere : (Kind.peer, m) ∈ (s'.term id).host.shown.keys → (Kind.peer, m) ∈ (s.term id).host.shown.keys) :
    Side s' id m := by
  refine ⟨fun hl => ?_, hforwards, hattached, fun hl => hlast (hlink ▸ hl), fun hl hc => ?_, fun hl hc => ?_,
    fun hl hc => ?_, fun hm => ?_⟩
  · rw [hlink] at hl
    rw [(hidle hl).1, (hidle hl).2]
    exact h.idle hl
  · exact absurd hc (hcoming (hlink ▸ hl))
  · exact absurd hc (hcoming (hlink ▸ hl))
  · exact absurd hc (hcoming (hlink ▸ hl))
  · rw [hlink, hended]
    exact h.linked (hhere hm)

/-! ### The Mac's own steps -/

/-- Only the Mac's part of a terminal is another. -/
structure MacOnly (s s' : State) (id m : Str) : Prop where
  host : (s'.term id).host = (s.term id).host
  up : (s'.term id).up m = (s.term id).up m
  down : (s'.term id).down m = (s.term id).down m
  link : s'.link m = s.link m
  ended : s'.ended m = s.ended m
  attached : s'.attached m id = s.attached m id
  name : s'.host_name = s.host_name

theorem frames_congr (hkeys : (s'.term id).host.shown = (s.term id).host.shown) (hlink : s'.link m = s.link m)
    (hname : s'.host_name = s.host_name) : s'.frames (s'.term id) m = s.frames (s.term id) m := by
  funext task
  unfold State.frames State.elsewhere
  rw [hkeys, hlink, hname]

theorem MacOnly.arriving (h : MacOnly s s' id m) : s'.arriving id m = s.arriving id m := by
  unfold State.arriving
  rw [h.down, h.host, frames_congr (by rw [h.host]) h.link h.name]

theorem MacOnly.idle (h : MacOnly s s' id m) (_ : s.link m = none) :
    (s'.term id).up m = (s.term id).up m ∧ (s'.term id).down m = (s.term id).down m := ⟨h.up, h.down⟩

/-- The Mac does something, and forwards it or does not need to. -/
theorem Side.mac (h : Side s id m) (hm : MacOnly s s' id m) (htodo : ((s.term id).mac m).todo = [])
    (hsending : ((s'.term id).mac m).sending = [] ∧
        (((s'.term id).mac m).shown.keys = [] ↔ ((s.term id).mac m).shown.keys = []) ∧
        (((s'.term id).mac m).shown.keys ≠ [] →
          ((s'.term id).mac m).shown.away.isNone = ((s.term id).mac m).shown.away.isNone) ∨
      ∃ f, ((s'.term id).mac m).sending = [f] ∧ f.leaves = decide (((s'.term id).mac m).shown.keys = []) ∧
        (((s'.term id).mac m).shown.keys ≠ [] → s.attached m id = true)) : Side s' id m := by
  have hold : ((s.term id).mac m).sending = [] := by rw [Machine.sending, htodo]; rfl
  rcases hsending with ⟨hnone, hempty, haway⟩ | ⟨f, hf, hleaves, hattached⟩
  · refine h.keep hm.link hm.ended (fun ha => hm.attached ▸ ha) hm.idle hempty (fun f hf => ?_) (fun _ => ?_)
      (by rw [hm.host]) fun _ _ hP hiff => ?_
    · rw [hnone] at hf
      exact absurd hf not_mem_nil
    · rw [Term.coming, Term.coming, hm.up, hnone, hold]
    · rw [hm.host, ← hiff, State.comes_to_hold, hm.arriving, haway fun hP' => hP (hempty.mp hP')]
      rfl
  · have hcoming : (s'.term id).coming m = (s.term id).up m ++ [f] := by rw [Term.coming, hm.up, hf]
    refine h.says hm.link hm.ended hm.idle (fun g hg => ?_) (fun hP => ?_) (fun _ => ?_) (fun _ => ?_) fun hin => ?_
    · rw [hf, mem_singleton] at hg
      rw [hg]
      exact hleaves
    · rw [hm.attached]
      exact hattached hP
    · rw [hcoming]
      exact append_ne_nil_of_right_ne_nil _ (cons_ne_nil f [])
    · rw [hcoming, latest_concat]
      exact hleaves
    · rw [← hm.host]
      exact hin

/-! #### What it forwards -/

variable {mac : Machine}

theorem command_sending (htodo : mac.todo = []) : (mac.command op who).sending =
    if op = .unpresent ∧ (mac.command op who).shown.keys ≠ [] then [] else [.ctl op] := by
  have hnone : (mac.shown.apply op who).2.1 ≠ none ↔ (mac.command op who).shown.keys ≠ [] := by
    refine not_congr ?_
    rw [← Shown.holder_eq_none, ← Option.map_eq_none_iff (f := Owner.key), Shown.apply_owner]
    rfl
  unfold Machine.sending Machine.command
  dsimp only
  rw [htodo, nil_append, flatMap_singleton, Task.sends]
  dsimp only
  by_cases h : op = .unpresent ∧ (mac.shown.apply op who).2.1 ≠ none
  · rw [if_pos h, if_pos ⟨h.1, hnone.mp h.2⟩]
    rfl
  · rw [if_neg h, if_neg fun h' => h ⟨h'.1, hnone.mpr h'.2⟩]
    rfl

theorem drop_surface_sending (htodo : mac.todo = []) : (mac.drop_surface who).sending =
    if mac.shown.keys ≠ [] ∧ (mac.drop_surface who).shown.keys = [] then [.ctl .unpresent] else [] := by
  have hkeys : (mac.drop_surface who).shown.keys = [] ↔ (mac.shown.unpresent who).2.1 = none := by
    rw [← Shown.holder_eq_none, ← Option.map_eq_none_iff (f := Owner.key), Shown.unpresent_owner]
    rfl
  have hsending : (mac.drop_surface who).sending = (if (mac.shown.unpresent who).2.2 then mac.todo ++ [{
      owner := (mac.shown.unpresent who).2.1, changed := (mac.shown.unpresent who).2.2,
      forward := if (mac.shown.unpresent who).2.1 = none then some .unpresent else none }] else mac.todo).flatMap
        Task.sends := rfl
  rw [hsending]
  by_cases hchanged : (mac.shown.unpresent who).2.2 = true
  · rw [if_pos hchanged, htodo, nil_append, flatMap_singleton, Task.sends]
    dsimp only
    by_cases howner : (mac.shown.unpresent who).2.1 = none
    · have hne : mac.shown.keys ≠ [] := fun h => by
        refine Shown.unpresent_changed.mp hchanged ?_
        rw [← Shown.unpresent_owner, howner, Shown.holder_eq_none.mpr h]
        rfl
      rw [if_pos howner, if_pos ⟨hne, hkeys.mpr howner⟩]
      rfl
    · rw [if_neg howner, if_neg fun h => howner (hkeys.mp h.2)]
      rfl
  · rw [if_neg hchanged, htodo]
    refine (if_neg fun h => ?_).symm
    have hsame : mac.shown.holder = (mac.shown.unpresent who).1.holder :=
      not_not.mp fun hne => hchanged (Shown.unpresent_changed.mpr hne)
    rw [← Shown.unpresent_owner, hkeys.mp h.2] at hsame
    exact h.1 (Shown.holder_eq_none.mp hsame)

theorem note_away_sending (htodo : mac.todo = []) (elsewhere : Option Str) :
    (mac.note_away elsewhere).sending = [] := by
  unfold Machine.sending Machine.note_away
  dsimp only
  split <;> rw [htodo] <;> rfl

theorem Side.command (h : Side s id m) (hm : MacOnly s s' id m) (htodo : ((s.term id).mac m).todo = [])
    (hattached : op ≠ .unpresent → s.attached m id = true)
    (hmac : (s'.term id).mac m = ((s.term id).mac m).command op who) : Side s' id m := by
  refine h.mac hm htodo ?_
  rw [hmac, command_sending htodo]
  have hkeys : (((s.term id).mac m).command op who).shown.keys = (((s.term id).mac m).shown.apply op who).1.keys := rfl
  by_cases hop : op = .unpresent
  · subst hop
    by_cases hstay : (((s.term id).mac m).command .unpresent who).shown.keys = []
    · right
      refine ⟨.ctl .unpresent, if_neg fun hc => hc.2 hstay, ?_, fun hne => absurd hstay hne⟩
      rw [decide_eq_true hstay]
      rfl
    · left
      refine ⟨if_pos ⟨rfl, hstay⟩, ⟨fun he => absurd he hstay, fun he => ?_⟩, fun _ => ?_⟩
      · rw [hkeys]
        change (((s.term id).mac m).shown.unpresent who).1.keys = []
        rw [Shown.unpresent_keys, he]
        rfl
      · change (((s.term id).mac m).shown.unpresent who).1.away.isNone = _
        rw [Shown.unpresent_away hstay]
  · right
    have hshown : (((s.term id).mac m).command op who).shown.keys ≠ [] := by
      rw [hkeys]
      exact ne_nil_of_mem (Shown.mem_apply_keys.mpr (Or.inr ⟨hop, rfl⟩))
    refine ⟨.ctl op, if_neg fun hc => hop hc.1, ?_, fun _ => hattached hop⟩
    rw [decide_eq_false hshown]
    cases op <;> first | rfl | exact absurd rfl hop

theorem Side.drop_surface (h : Side s id m) (hm : MacOnly s s' id m) (htodo : ((s.term id).mac m).todo = [])
    (hmac : (s'.term id).mac m = ((s.term id).mac m).drop_surface who) : Side s' id m := by
  refine h.mac hm htodo ?_
  rw [hmac, drop_surface_sending htodo]
  by_cases hgo : ((s.term id).mac m).shown.keys ≠ [] ∧ (((s.term id).mac m).drop_surface who).shown.keys = []
  · right
    refine ⟨.ctl .unpresent, if_pos hgo, ?_, fun hne => absurd hgo.2 hne⟩
    rw [decide_eq_true hgo.2]
    rfl
  · left
    refine ⟨if_neg hgo, ⟨fun he => not_not.mp fun hne => hgo ⟨hne, he⟩, fun he => ?_⟩, fun hstay => ?_⟩
    · change (((s.term id).mac m).shown.unpresent who).1.keys = []
      rw [Shown.unpresent_keys, he]
      rfl
    · change (((s.term id).mac m).shown.unpresent who).1.away.isNone = _
      rw [Shown.unpresent_away hstay]

end

end Lpm.Control
