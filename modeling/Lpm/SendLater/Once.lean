/-
A prompt sent later is typed once.

The store and the window with the runner are two parties. A snapshot of any revision there
has been may reach the window at any time and any number of times; the window keeps the
newest. The runner's calls to remove what it typed, and the user's to add, reschedule, send
now and remove, reach the store at any time.

The runner works from a list that may be old. What carries the proof is that a prompt is in
the store's list from one revision on up to another: once the window has seen it and then
not seen it, it never sees it again.
-/
import Lpm.Lib.Transition
import Lpm.SendLater.Runner

set_option autoImplicit false

open Transition

namespace Lpm.SendLater

open List Function

/-- The store with the list of each of its revisions, the window, and the prompts that were
typed. -/
structure World where
  schedule : Schedule
  sender : Bool
  history : ℕ → List ScheduledPrompt
  store : Store
  runner : Runner
  terminals : Terminals
  typed : List String

inductive Event where
  | add (saved : Except String Unit) (now : ℤ) (id : String) (prompt : NewPrompt)
  | reschedule (saved : Except String Unit) (now : ℤ) (id : String) (due_at : ℤ) (kind : Option String)
  | send_now (saved : Except String Unit) (id : String)
  | remove (saved : Except String Unit) (id : String)
  | tick (now : ℤ)
  | arrive (rev : ℕ)
  | pump (win : Surroundings)
  | looked (a : Attempt) (win : Surroundings) (look : Look)
  | built (a : Attempt) (now : ℤ) (payload : Bool) (receiver : Receiver)
  | compose (terminal : String) (receiver : Receiver)
  | delivered (terminal : String)

variable (w : World)

/-- The store after a command; one that fails leaves it as it was. -/
def World.commit (result : Except String Schedule) : World :=
  match result with
  | .error _ => w
  | .ok schedule =>
    { w with schedule, history := Function.update w.history schedule.rev schedule.items }

/-- A snapshot reaches the window; a new list has every waiting prompt looked at afresh. -/
def World.arrive (rev : ℕ) : World :=
  let store := w.store.applySnapshot { rev, sender := w.sender, items := w.history rev }
  if w.store.rev.any fun held => rev ≤ held then w
  else { w with store, runner := { w.runner with held := fun _ => none } }

variable (key_of : String → String)

/-- Ids are random, so a new one was never used. -/
def step (w : World) : Event → World → Prop
  | .add saved now id prompt, w' =>
    (∀ rev ≤ w.schedule.rev, id ∉ ids (w.history rev)) ∧
      w' = w.commit (w.schedule.add w.sender saved now id prompt)
  | .reschedule saved now id due_at kind, w' =>
    w' = w.commit (w.schedule.reschedule w.sender saved now id due_at kind)
  | .send_now saved id, w' => w' = w.commit (w.schedule.send_now w.sender saved id)
  | .remove saved id, w' => w' = w.commit (w.schedule.remove w.sender saved id)
  | .tick now, w' => w' = w.commit (.ok (w.schedule.tick now))
  | .arrive rev, w' => rev ≤ w.schedule.rev ∧ w' = w.arrive rev
  | .pump win, w' => w' = { w with runner := w.runner.pump key_of w.store win }
  | .looked a win look, w' =>
    a ∈ w.runner.attempts ∧ a.payload = none ∧
      w' = { w with runner := w.runner.looked w.store win a look }
  | .built a now payload receiver, w' =>
    a ∈ w.runner.attempts ∧ a.payload ≠ none ∧
      w' =
        let (runner, terminals, done) := w.runner.built w.store now a payload receiver w.terminals
        { w with runner, terminals, typed := if done then a.item.id :: w.typed else w.typed }
  | .compose terminal receiver, w' =>
    w' = { w with terminals := (w.terminals.deliverInput terminal none receiver).1 }
  | .delivered terminal, w' => w' = { w with terminals := w.terminals.delivered terminal }

/-- A store that was read at launch, and a runner that has just started. -/
structure Launched (w : World) : Prop where
  history : w.history w.schedule.rev = w.schedule.items
  first : w.schedule.rev = 0
  store : w.store = { items := [], sender := false, rev := none }
  inFlight : ∀ id, w.runner.inFlight id = false
  busy : ∀ key, w.runner.busyTerminals key = false
  sent : ∀ id, w.runner.sent id = false
  attempts : w.runner.attempts = []
  delivering : ∀ terminal, w.terminals.delivering terminal = false
  deliveries : w.terminals.deliveries = []
  typed : w.typed = []

def send_later : System World Event where
  init := Launched
  step := step key_of

/-! ## What the window has seen -/

/-- A list the window held, or one older, had the prompt. -/
def World.Known (id : String) : Prop :=
  ∃ rev early, w.store.rev = some rev ∧ early ≤ rev ∧ id ∈ ids (w.history early)

/-- A list had the prompt, and a later one no newer than the window's did not. -/
def World.Gone (id : String) : Prop :=
  ∃ rev early late, w.store.rev = some rev ∧ early ≤ late ∧ late ≤ rev ∧
    id ∈ ids (w.history early) ∧ id ∉ ids (w.history late)

/-- A prompt is in the lists of one stretch of revisions, and the window has one of the lists. -/
structure Kept (w : World) : Prop where
  current : w.history w.schedule.rev = w.schedule.items
  lasting : ∀ id early mid late, early ≤ mid → mid ≤ late → late ≤ w.schedule.rev →
    id ∈ ids (w.history early) → id ∈ ids (w.history late) → id ∈ ids (w.history mid)
  mirror : ∀ id ∈ ids w.store.items, ∃ rev, w.store.rev = some rev ∧ id ∈ ids (w.history rev)
  whole : ∀ rev, w.store.rev = some rev → rev ≤ w.schedule.rev ∧
    ∀ id ∈ ids (w.history rev), id ∈ ids w.store.items

section
variable {w : World}

theorem Kept.known (hk : Kept w) {id : String} (hid : id ∈ ids w.store.items) : w.Known id := by
  obtain ⟨rev, hrev, hin⟩ := hk.mirror id hid
  exact ⟨rev, rev, hrev, Nat.le_refl _, hin⟩

/-- What is gone is not in the window's list. -/
theorem Kept.not_gone (hk : Kept w) {id : String} (hid : id ∈ ids w.store.items) : ¬w.Gone id := by
  rintro ⟨rev, early, late, hrev, hle, hlate, hearly, hnot⟩
  obtain ⟨rev', hrev', hin⟩ := hk.mirror id hid
  rw [hrev] at hrev'
  cases hrev'
  exact hnot (hk.lasting id early late rev hle hlate (hk.whole rev hrev).1 hearly hin)

theorem Kept.gone (hk : Kept w) {id : String} (hknown : w.Known id) (hid : id ∉ ids w.store.items) :
    w.Gone id := by
  obtain ⟨rev, early, hrev, hle, hin⟩ := hknown
  exact ⟨rev, early, rev, hrev, hle, Nat.le_refl _, hin, fun h => hid ((hk.whole rev hrev).2 id h)⟩

end

/-! ## The runner's part -/

/-- Attempts are of different prompts and in different terminals, a prompt was typed once, and
one that was is not looked at again or is gone. -/
structure Fair (key_of : String → String) (gone : String → Prop) (r : Runner) (typed : List String) :
    Prop where
  attempt : ∀ a ∈ r.attempts, r.inFlight a.item.id = true ∧
    r.busyTerminals a.item.history_key = true ∧ key_of a.target = a.item.history_key ∧
    a.item.id ∉ typed
  ids : (r.attempts.map fun a => a.item.id).Nodup
  keys : (r.attempts.map fun a => a.item.history_key).Nodup
  once : typed.Nodup
  typed : ∀ id ∈ typed, r.sent id = true ∨ gone id

section
variable {key_of : String → String} {gone : String → Prop} {r : Runner} {typed : List String}

variable (h : Fair key_of gone r typed)
include h

/-- The pauses and holds of the runner make no difference. -/
theorem Fair.congr {r' : Runner} (hflight : r'.inFlight = r.inFlight)
    (hbusy : r'.busyTerminals = r.busyTerminals) (hsent : r'.sent = r.sent)
    (hattempts : r'.attempts = r.attempts) : Fair key_of gone r' typed := by
  obtain ⟨hattempt, hids, hkeys, honce, htyped⟩ := h
  rw [← hattempts] at hattempt hids hkeys
  rw [← hflight, ← hbusy] at hattempt
  rw [← hsent] at htyped
  exact ⟨hattempt, hids, hkeys, honce, htyped⟩

variable {item : ScheduledPrompt}

theorem Fair.attempts {target : String}
    (hsent : r.sent item.id = false) (hflight : r.inFlight item.id = false)
    (hbusy : r.busyTerminals item.history_key = false) (hkey : key_of target = item.history_key)
    (hgone : ¬gone item.id) : Fair key_of gone (r.attempt item target) typed := by
  constructor
  · intro a ha
    rcases mem_cons.mp ha with rfl | ha
    · refine ⟨update_self _ _ _, update_self _ _ _, hkey, fun hin => ?_⟩
      rcases h.typed _ hin with hin | hin
      · exact Bool.false_ne_true (hsent.symm.trans hin)
      · exact hgone hin
    · obtain ⟨haf, hab, hak, hat⟩ := h.attempt a ha
      refine ⟨?_, ?_, hak, hat⟩
      · simp only [Runner.attempt, update_apply, haf, ite_self]
      · simp only [Runner.attempt, update_apply, hab, ite_self]
  · rw [Runner.attempt, map_cons, nodup_cons]
    refine ⟨fun hin => ?_, h.ids⟩
    obtain ⟨a, ha, hid⟩ := List.mem_map.mp hin
    have haf := (h.attempt a ha).1
    rw [hid] at haf
    exact Bool.false_ne_true (hflight.symm.trans haf)
  · rw [Runner.attempt, map_cons, nodup_cons]
    refine ⟨fun hin => ?_, h.keys⟩
    obtain ⟨a, ha, hid⟩ := List.mem_map.mp hin
    have hab := (h.attempt a ha).2.1
    rw [hid] at hab
    exact Bool.false_ne_true (hbusy.symm.trans hab)
  · exact h.once
  · exact h.typed

theorem Fair.consider (win : Surroundings)
    (hgone : ¬gone item.id) : Fair key_of gone (r.consider key_of win item) typed := by
  rw [Runner.consider]
  by_cases hskip : (item.state ≠ .due || r.sent item.id || r.inFlight item.id) = true
  · rw [if_pos hskip]
    exact h
  rw [if_neg hskip]
  by_cases hbusy : r.busyTerminals item.history_key = true
  · rw [if_pos hbusy]
    exact h
  rw [if_neg hbusy]
  by_cases hretry : (r.retryAfter item.id).any (· > win.now) = true
  · rw [if_pos hretry]
    exact h
  rw [if_neg hretry]
  dsimp only
  cases hfind : findTarget key_of win item with
  | none => exact h.congr rfl rfl rfl rfl
  | some target =>
      dsimp only
      split_ifs
      · exact h.congr rfl rfl rfl rfl
      · simp only [Bool.or_eq_true, not_or, Bool.not_eq_true] at hskip hbusy
        rw [findTarget] at hfind
        have hkey := find?_some hfind
        rw [decide_eq_true_eq] at hkey
        refine Fair.attempts ?_ ?_ ?_ ?_ hkey hgone
        · exact h.congr rfl rfl rfl rfl
        · exact hskip.1.2
        · exact hskip.2
        · exact hbusy

/-- A pump: the prompts of the list are not gone, and one that was typed and is not in it is. -/
theorem Fair.pump (store : Store) (win : Surroundings)
    (hin : ∀ id ∈ SendLater.ids store.items, ¬gone id)
    (hout : ∀ id ∈ typed, id ∉ SendLater.ids store.items → gone id) :
    Fair key_of gone (r.pump key_of store win) typed := by
  have hfold : ∀ (items : List ScheduledPrompt) (r : Runner), (∀ item ∈ items, ¬gone item.id) →
      Fair key_of gone r typed →
      Fair key_of gone (items.foldl (fun r item => r.consider key_of win item) r) typed := by
    intro items
    induction items with
    | nil =>
        intro r _ h
        exact h
    | cons item items ih =>
        intro r hitems h
        rw [foldl_cons]
        exact ih _ (fun i hi => hitems i (mem_cons_of_mem _ hi))
          (h.consider win (hitems item mem_cons_self))
  rw [Runner.pump]
  split_ifs
  · refine hfold store.items _ (fun item hitem => hin _ (List.mem_map.mpr ⟨item, hitem, rfl⟩)) ?_
    refine ⟨h.attempt, h.ids, h.keys, h.once, fun id hid => ?_⟩
    by_cases hlive : id ∈ SendLater.ids store.items
    · refine (h.typed id hid).imp_left (fun hsent => ?_)
      simp only [hsent, Bool.true_and, contains_eq_mem, hlive, decide_true]
    · exact .inr (hout id hid hlive)
  · exact h

/-- The end of an attempt frees its prompt and its terminal, which no other has. -/
theorem Fair.finish {a : Attempt} (ha : a ∈ r.attempts) :
    Fair key_of gone (r.finish a) typed := by
  constructor
  · intro b hb
    rw [Runner.finish] at hb
    obtain ⟨hb, hid⟩ := mem_filter.mp hb
    rw [decide_eq_true_eq] at hid
    obtain ⟨hbf, hbb, hbk, hbt⟩ := h.attempt b hb
    have hkey : b.item.history_key ≠ a.item.history_key := by
      intro heq
      have hba : b = a := inj_on_of_nodup_map h.keys hb ha heq
      exact hid (by rw [hba])
    exact ⟨(update_of_ne hid _ _).trans hbf, (update_of_ne hkey _ _).trans hbb, hbk, hbt⟩
  · exact h.ids.sublist (filter_sublist.map _)
  · exact h.keys.sublist (filter_sublist.map _)
  · exact h.once
  · exact h.typed

theorem Fair.looked {a : Attempt} (ha : a ∈ r.attempts) (store : Store)
    (win : Surroundings) (look : Look) : Fair key_of gone (r.looked store win a look) typed := by
  rw [Runner.looked]
  cases store.current a.item.id with
  | none => exact h.finish ha
  | some due =>
      dsimp only
      split_ifs
      · exact h.finish ha
      · split
        · refine Fair.finish ?_ ?_
          · exact h.congr rfl rfl rfl rfl
          · exact ha
        -- the attempt goes on with its payload, the same in all that counts
        · have hitem : ∀ b : Attempt, (if b.item.id = a.item.id then { b with payload := some due } else b).item
              = b.item := by
            intro b
            split_ifs
            · rfl
            · rfl
          have htarget : ∀ b : Attempt, (if b.item.id = a.item.id then { b with payload := some due }
              else b).target = b.target := by
            intro b
            split_ifs
            · rfl
            · rfl
          refine ⟨fun b' hb' => ?_, ?_, ?_, h.once, h.typed⟩
          · obtain ⟨b, hb, rfl⟩ := List.mem_map.mp hb'
            rw [hitem, htarget]
            exact h.attempt b hb
          · rw [List.map_map]
            simp only [comp_def, hitem]
            exact h.ids
          · rw [List.map_map]
            simp only [comp_def, hitem]
            exact h.keys

omit h in
theorem current_id {store : Store} {id : String}
    (h : store.current id = some item) : item.id = id ∧ id ∈ SendLater.ids store.items := by
  have hid := find?_some h
  rw [decide_eq_true_eq] at hid
  exact ⟨hid, List.mem_map.mpr ⟨item, mem_of_find?_eq_some h, hid⟩⟩

/-- An attempt's end types its prompt or leaves it; typed, it is in the window's list. -/
theorem Fair.built {a : Attempt} (ha : a ∈ r.attempts) (store : Store)
    (now : ℤ) (payload : Bool) (receiver : Receiver) (t : Terminals) : ∀ r' t' done,
    r.built store now a payload receiver t = (r', t', done) →
    Fair key_of gone r' (if done then a.item.id :: typed else typed) ∧
      (done = true → a.item.id ∈ SendLater.ids store.items) ∧
      ∃ who, t' = t ∨ t' = (t.deliverInput a.target who receiver).1 := by
  -- every way out but one leaves what was typed as it is
  have hleft : ∀ r' t', Fair key_of gone r' typed →
      (∃ who, t' = t ∨ t' = (t.deliverInput a.target who receiver).1) →
      Fair key_of gone r' (if false = true then a.item.id :: typed else typed) ∧
      (false = true → a.item.id ∈ SendLater.ids store.items) ∧
      ∃ who, t' = t ∨ t' = (t.deliverInput a.target who receiver).1 :=
    fun r' t' h ht => ⟨h, fun hf => absurd hf Bool.false_ne_true, ht⟩
  have hrefused : ∀ id, Fair key_of gone ((r.refused id now).finish a) typed := by
    intro id
    refine Fair.finish ?_ ?_
    · exact h.congr rfl rfl rfl rfl
    · exact ha
  intro r' t' done hbuilt
  cases payload with
  | false =>
      cases hbuilt
      exact hleft _ _ (hrefused _) ⟨none, .inl rfl⟩
  | true =>
      rw [Runner.built, if_pos rfl] at hbuilt
      cases hcurrent : store.current a.item.id with
      | none =>
          rw [hcurrent] at hbuilt
          cases hbuilt
          exact hleft _ _ (h.finish ha) ⟨none, .inl rfl⟩
      | some still =>
          obtain ⟨hid, hin⟩ := current_id hcurrent
          rw [hcurrent] at hbuilt
          dsimp only at hbuilt
          by_cases hdue : still.state ≠ .due
          · rw [if_pos hdue] at hbuilt
            cases hbuilt
            exact hleft _ _ (h.finish ha) ⟨none, .inl rfl⟩
          rw [if_neg hdue] at hbuilt
          rcases hdeliver : t.deliverInput a.target (some still.id) receiver with ⟨t'', accepted⟩
          rw [hdeliver] at hbuilt
          have hsame : t'' = (t.deliverInput a.target (some still.id) receiver).1 := by rw [hdeliver]
          cases accepted with
          | false =>
              cases hbuilt
              exact hleft _ _ (hrefused _) ⟨some still.id, .inr hsame⟩
          | true =>
              cases hbuilt
              refine ⟨?_, fun _ => hin, some still.id, .inr hsame⟩
              -- typed: the attempt is over, and no other one has its prompt
              have hfinish := h.finish ha
              rw [if_pos rfl]
              refine ⟨fun b hb => ?_, hfinish.ids, hfinish.keys, ?_, fun id hin' => ?_⟩
              · obtain ⟨hbf, hbb, hbk, hbt⟩ := hfinish.attempt b hb
                refine ⟨hbf, hbb, hbk, fun hmem => ?_⟩
                rcases mem_cons.mp hmem with heq | hmem
                · have hne := (mem_filter.mp hb).2
                  rw [decide_eq_true_eq] at hne
                  exact hne heq
                · exact hbt hmem
              · exact nodup_cons.mpr ⟨(h.attempt a ha).2.2.2, h.once⟩
              · rcases mem_cons.mp hin' with rfl | hin'
                · rw [← hid]
                  exact .inl (update_self _ _ _)
                · refine (h.typed id hin').imp_left (fun hsent => ?_)
                  simp only [Runner.finish, update_apply, hsent, ite_self]

theorem Fair.mono {gone' : String → Prop}
    (hgone : ∀ id, gone id → gone' id) : Fair key_of gone' r typed :=
  ⟨h.attempt, h.ids, h.keys, h.once, fun id hid => (h.typed id hid).imp_right (hgone id)⟩

end

/-! ## The lists of the store and of the window -/

section
variable {w : World}

/-- A change makes the next list, with no prompt that was in an earlier one and not the last. -/
theorem Kept.commit (hk : Kept w) {s' : Schedule} {new : Option String}
    (hnext : w.schedule.Next s' new)
    (hnew : ∀ id, new = some id → ∀ rev ≤ w.schedule.rev, id ∉ ids (w.history rev)) :
    Kept (w.commit (.ok s')) ∧ (∀ id, w.Known id → (w.commit (.ok s')).Known id) ∧
      ∀ id, w.Gone id → (w.commit (.ok s')).Gone id := by
  obtain ⟨hrev, hids⟩ := hnext
  have hold : ∀ rev ≤ w.schedule.rev, (w.commit (.ok s')).history rev = w.history rev := by
    intro rev hle
    exact update_of_ne (by omega) _ _
  have hlast : (w.commit (.ok s')).history s'.rev = s'.items := update_self _ _ _
  have hstore : ∀ rev, w.store.rev = some rev → rev ≤ w.schedule.rev := fun rev h => (hk.whole rev h).1
  refine ⟨⟨hlast, ?_, ?_, ?_⟩, ?_, ?_⟩
  · intro id early mid late hle hle' hlate hearly hin
    have hlate' : late ≤ s'.rev := hlate
    by_cases hmid : mid ≤ w.schedule.rev
    · rw [hold early (by omega)] at hearly
      rw [hold mid hmid]
      by_cases hl : late ≤ w.schedule.rev
      · rw [hold late hl] at hin
        exact hk.lasting id early mid late hle hle' hl hearly hin
      -- in the new list, so it was in the last one
      · have heq : late = s'.rev := by omega
        rw [heq, hlast] at hin
        rcases hids id hin with hin | hin
        · refine hk.lasting id early mid w.schedule.rev hle hmid (Nat.le_refl _) hearly ?_
          rw [hk.current]
          exact hin
        · exact absurd hearly (hnew id hin early (by omega))
    · have heq : mid = late := by omega
      rw [heq]
      exact hin
  · intro id hid
    obtain ⟨rev, hr, hin⟩ := hk.mirror id hid
    exact ⟨rev, hr, by rw [hold rev (hstore rev hr)]; exact hin⟩
  · intro rev hr
    have hle := hstore rev hr
    refine ⟨?_, fun id hid => ?_⟩
    · change rev ≤ s'.rev
      omega
    · rw [hold rev hle] at hid
      exact (hk.whole rev hr).2 id hid
  · rintro id ⟨rev, early, hr, hle, hin⟩
    have hle' := hstore rev hr
    exact ⟨rev, early, hr, hle, by rw [hold early (by omega)]; exact hin⟩
  · rintro id ⟨rev, early, late, hr, hle, hlate, hin, hnot⟩
    have hle' := hstore rev hr
    refine ⟨rev, early, late, hr, hle, hlate, ?_, ?_⟩
    · rw [hold early (by omega)]
      exact hin
    · rw [hold late (by omega)]
      exact hnot

theorem Kept.commit_same (hk : Kept w) : w.commit (.ok w.schedule) = w := by
  have hhistory : Function.update w.history w.schedule.rev w.schedule.items = w.history := by
    rw [← hk.current]
    exact update_eq_self _ _
  rw [World.commit, hhistory]

theorem ids_sorted (items : List ScheduledPrompt) (id : String) :
    id ∈ ids (items.mergeSort fun a b => a.due_at ≤ b.due_at) ↔ id ∈ ids items :=
  ((mergeSort_perm items _).map _).mem_iff

/-- A newer list takes the place of the window's. -/
theorem Kept.arrive (hk : Kept w) {rev : ℕ} (hrev : rev ≤ w.schedule.rev) :
    Kept (w.arrive rev) ∧ (∀ id, w.Known id → (w.arrive rev).Known id) ∧
      ∀ id, w.Gone id → (w.arrive rev).Gone id := by
  rw [World.arrive]
  dsimp only
  by_cases hheld : (w.store.rev.any fun held => rev ≤ held) = true
  · rw [if_pos hheld]
    exact ⟨hk, fun _ h => h, fun _ h => h⟩
  · rw [if_neg hheld]
    have hnewer : ∀ held, w.store.rev = some held → held ≤ rev := by
      intro held h
      rw [h, Option.any_some, decide_eq_true_eq] at hheld
      omega
    have hstore : w.store.applySnapshot { rev, sender := w.sender, items := w.history rev }
        = { items := (w.history rev).mergeSort fun a b => a.due_at ≤ b.due_at
            sender := w.sender
            rev := some rev } := if_neg hheld
    rw [hstore]
    refine ⟨⟨hk.current, hk.lasting, fun id hid => ?_, fun r hr => ?_⟩, ?_, ?_⟩
    · exact ⟨rev, rfl, (ids_sorted _ _).mp hid⟩
    · cases hr
      exact ⟨hrev, fun id hid => (ids_sorted _ _).mpr hid⟩
    · rintro id ⟨held, early, hh, hle, hin⟩
      exact ⟨rev, early, rfl, Nat.le_trans hle (hnewer held hh), hin⟩
    · rintro id ⟨held, early, late, hh, hle, hlate, hin, hnot⟩
      exact ⟨rev, early, late, rfl, hle, Nat.le_trans hlate (hnewer held hh), hin, hnot⟩

end

/-! ## The terminals' part -/

/-- What runs in a terminal is marked, and runs there alone. -/
structure Alone (t : Terminals) : Prop where
  marked : ∀ d ∈ t.deliveries, t.delivering d.1 = true
  nodup : (t.deliveries.map Prod.fst).Nodup

theorem Alone.deliverInput {t : Terminals} (h : Alone t) (terminal : String) (who : Option String)
    (r : Receiver) : Alone (t.deliverInput terminal who r).1 := by
  rw [Terminals.deliverInput]
  split_ifs with hdead hbusy hglued hempty
  · exact h
  · exact h
  · exact h
  · exact h
  · refine ⟨fun d hd => ?_, ?_⟩
    · rcases mem_cons.mp hd with rfl | hd
      · exact update_self _ _ _
      · simp only [update_apply, h.marked d hd, ite_self]
    · refine nodup_cons.mpr ⟨fun hin => ?_, h.nodup⟩
      obtain ⟨d, hd, heq⟩ := List.mem_map.mp hin
      have hmarked := h.marked d hd
      rw [heq] at hmarked
      exact hbusy hmarked

theorem Alone.delivered {t : Terminals} (h : Alone t) (terminal : String) :
    Alone (t.delivered terminal) := by
  refine ⟨fun d hd => ?_, h.nodup.sublist (filter_sublist.map _)⟩
  obtain ⟨hd, hne⟩ := mem_filter.mp hd
  rw [decide_eq_true_eq] at hne
  exact (update_of_ne hne _ _).trans (h.marked d hd)

/-! ## The invariant -/

structure Inv (key_of : String → String) (w : World) : Prop where
  kept : Kept w
  fair : Fair key_of w.Gone w.runner w.typed
  known : ∀ id ∈ w.typed, w.Known id
  alone : Alone w.terminals

section
variable {key_of : String → String} {w : World}

theorem Launched.inv (h : Launched w) : Inv key_of w := by
  refine ⟨⟨h.history, ?_, ?_, ?_⟩, ⟨?_, ?_, ?_, ?_, ?_⟩, ?_, ⟨?_, ?_⟩⟩
  · intro id early mid late hle hle' hlate hearly _
    rw [h.first] at hlate
    have heq : mid = early := by omega
    rw [heq]
    exact hearly
  · intro id hid
    rw [h.store] at hid
    exact absurd hid not_mem_nil
  · intro rev hrev
    rw [h.store] at hrev
    exact nomatch hrev
  · intro a ha
    rw [h.attempts] at ha
    exact absurd ha not_mem_nil
  · rw [h.attempts]
    exact nodup_nil
  · rw [h.attempts]
    exact nodup_nil
  · rw [h.typed]
    exact nodup_nil
  · intro id hid
    rw [h.typed] at hid
    exact absurd hid not_mem_nil
  · intro id hid
    rw [h.typed] at hid
    exact absurd hid not_mem_nil
  · intro d hd
    rw [h.deliveries] at hd
    exact absurd hd not_mem_nil
  · rw [h.deliveries]
    exact nodup_nil

theorem Inv.commit (hi : Inv key_of w) {result : Except String Schedule} {new : Option String}
    (hnext : ∀ s', result = .ok s' → w.schedule.Next s' new)
    (hnew : ∀ id, new = some id → ∀ rev ≤ w.schedule.rev, id ∉ ids (w.history rev)) :
    Inv key_of (w.commit result) := by
  cases result with
  | error e => exact hi
  | ok s' =>
      obtain ⟨hkept, hknown, hgone⟩ := hi.kept.commit (hnext s' rfl) hnew
      exact ⟨hkept, hi.fair.mono hgone, fun id hid => hknown id (hi.known id hid), hi.alone⟩

theorem Inv.step (hi : Inv key_of w) (e : Event) (w' : World) (h : SendLater.step key_of w e w') :
    Inv key_of w' := by
  have hnone : ∀ id, (none : Option String) = some id → ∀ rev ≤ w.schedule.rev,
      id ∉ ids (w.history rev) := fun _ h => nomatch h
  cases e with
  | add saved now id prompt =>
      obtain ⟨hfresh, rfl⟩ := h
      refine hi.commit (fun s' hs' => add_next hs') (fun id' hid' => ?_)
      rw [← Option.some.inj hid']
      exact hfresh
  | reschedule saved now id due_at kind =>
      rw [show w' = _ from h]
      exact hi.commit (fun s' hs' => reschedule_next hs') hnone
  | send_now saved id =>
      rw [show w' = _ from h]
      exact hi.commit (fun s' hs' => send_now_next hs') hnone
  | remove saved id =>
      rw [show w' = _ from h]
      exact hi.commit (fun s' hs' => remove_next hs') hnone
  | tick now =>
      rw [show w' = _ from h]
      rcases tick_next w.schedule now with hsame | hnext
      · rw [hsame, hi.kept.commit_same]
        exact hi
      · refine hi.commit (fun s' hs' => ?_) hnone
        rw [← Except.ok.inj hs']
        exact hnext
  | arrive rev =>
      obtain ⟨hrev, rfl⟩ := h
      -- a mirror may be late, and an older one is not taken
      obtain ⟨hkept, hknown, hgone⟩ := hi.kept.arrive hrev
      have hrest : (w.arrive rev).typed = w.typed ∧ (w.arrive rev).terminals = w.terminals ∧
          Fair key_of w.Gone (w.arrive rev).runner w.typed := by
        rw [World.arrive]
        dsimp only
        split_ifs
        · exact ⟨rfl, rfl, hi.fair⟩
        · exact ⟨rfl, rfl, hi.fair.congr rfl rfl rfl rfl⟩
      obtain ⟨htyped, hterminals, hfair⟩ := hrest
      refine ⟨hkept, ?_, fun id hid => ?_, ?_⟩
      · rw [htyped]
        exact hfair.mono hgone
      · rw [htyped] at hid
        exact hknown id (hi.known id hid)
      · rw [hterminals]
        exact hi.alone
  | pump win =>
      rw [show w' = _ from h]
      refine ⟨⟨hi.kept.current, hi.kept.lasting, hi.kept.mirror, hi.kept.whole⟩, ?_, hi.known, hi.alone⟩
      exact hi.fair.pump w.store win (fun id hid => hi.kept.not_gone hid)
        (fun id hid hout => hi.kept.gone (hi.known id hid) hout)
  | looked a win look =>
      obtain ⟨ha, -, rfl⟩ := h
      refine ⟨⟨hi.kept.current, hi.kept.lasting, hi.kept.mirror, hi.kept.whole⟩, ?_, hi.known, hi.alone⟩
      exact hi.fair.looked ha w.store win look
  | built a now payload receiver =>
      obtain ⟨ha, -, hw'⟩ := h
      -- only here is anything typed
      rcases hbuilt : w.runner.built w.store now a payload receiver w.terminals with ⟨r', t', done⟩
      rw [hbuilt] at hw'
      obtain ⟨hfair, hin, who, ht⟩ := hi.fair.built ha w.store now payload receiver w.terminals r' t'
        done hbuilt
      rw [hw']
      refine ⟨⟨hi.kept.current, hi.kept.lasting, hi.kept.mirror, hi.kept.whole⟩, hfair,
        fun id hid => ?_, ?_⟩
      · cases done with
        | false => exact hi.known id hid
        | true =>
            rcases mem_cons.mp hid with rfl | hid
            · exact hi.kept.known (hin rfl)
            · exact hi.known id hid
      · rcases ht with ht | ht
        · exact ht ▸ hi.alone
        · exact ht ▸ hi.alone.deliverInput a.target who receiver
  | compose terminal receiver =>
      rw [show w' = _ from h]
      exact ⟨⟨hi.kept.current, hi.kept.lasting, hi.kept.mirror, hi.kept.whole⟩, hi.fair, hi.known,
        hi.alone.deliverInput terminal none receiver⟩
  | delivered terminal =>
      rw [show w' = _ from h]
      exact ⟨⟨hi.kept.current, hi.kept.lasting, hi.kept.mirror, hi.kept.whole⟩, hi.fair, hi.known,
        hi.alone.delivered terminal⟩

end

/-- Whatever the order of things, no prompt is typed a second time, no two attempts are under
way at one terminal, and no two prompts go into one. -/
theorem typed_once {key_of : String → String} {w : World} (h : Reachable (send_later key_of) w) :
    (∀ id, w.typed.count id ≤ 1) ∧ (w.runner.attempts.map Attempt.target).Nodup ∧
      (w.terminals.deliveries.map Prod.fst).Nodup := by
  have hi : Inv key_of w := by
    refine Reachable.invariant ?_ ?_ h
    · intro w hw
      exact Launched.inv hw
    · intro w e w' hi hstep
      exact hi.step e w' hstep
  refine ⟨fun id => nodup_iff_count_le_one.mp hi.fair.once id, ?_, hi.alone.nodup⟩
  -- two attempts at one terminal would have one key
  have hkeys : (w.runner.attempts.map Attempt.target).map key_of
      = w.runner.attempts.map fun a => a.item.history_key := by
    rw [List.map_map]
    exact map_congr_left (fun a ha => (hi.fair.attempt a ha).2.2.1)
  refine List.Nodup.of_map key_of ?_
  rw [hkeys]
  exact hi.fair.keys

/-! ## A prompt queued for a shell -/

def queued : ScheduledPrompt :=
  { id := "a", project_name := "p", history_key := "tab", agent := "", text := ['l', 's'], due_at := 0,
    created_at := 0, state := .due, kind := KIND_DONE, force := false }

def launched_world : World :=
  { schedule := { items := [queued], rev := 0 }
    sender := true
    history := fun _ => [queued]
    store := { items := [], sender := false, rev := none }
    runner := {
      inFlight := fun _ => false
      busyTerminals := fun _ => false
      sent := fun _ => false
      lastSent := fun _ => none
      retryAfter := fun _ => none
      held := fun _ => none
      failures := fun _ => 0
      attempts := [] }
    terminals := { delivering := fun _ => false, deliveries := [] }
    typed := [] }

def listed_world : World :=
  { launched_world with store := { items := [queued], sender := true, rev := some 0 } }

def shell_window : Surroundings := { now := 0, targets := fun _ => ["pty"], agent := fun _ _ => none }

def shell_look : Look := { foreground := .shell, quietMs := none, switchingModel := false }

def one_line : Receiver := { dead := false, glued := true, empty := false }

theorem typed_once_queued : ∃ w : World, w.typed = ["a"] ∧ (∀ id, w.typed.count id ≤ 1) ∧
    (w.runner.attempts.map Attempt.target).Nodup ∧ (w.terminals.deliveries.map Prod.fst).Nodup := by
  have h1 : Reachable (send_later fun _ => "tab") listed_world := by
    refine .next (a := Event.arrive 0) (s := launched_world) (.start ?_) ⟨Nat.le_refl _, ?_⟩
    · exact ⟨rfl, rfl, rfl, fun _ => rfl, fun _ => rfl, fun _ => rfl, rfl, fun _ => rfl, rfl, rfl⟩
    · simp [World.arrive, Store.applySnapshot, launched_world, listed_world]
  have h2 := Reachable.next (a := Event.pump shell_window) h1 rfl
  have h3 := Reachable.next
    (a := Event.looked { item := queued, target := "pty", payload := none } shell_window shell_look) h2
    ⟨mem_cons_self, rfl, rfl⟩
  have h4 := Reachable.next
    (a := Event.built { item := queued, target := "pty", payload := some queued } 0 true one_line) h3
    ⟨mem_cons_self, by decide, rfl⟩
  exact ⟨_, rfl, typed_once h4⟩

end Lpm.SendLater
