/-
What a composer finds again.

A draft is saved under a history key while its composer lives, and the tab may come back with
another terminal: then only the disk has it. What is still to be written half a second later
is not asked.
-/
import Lpm.Lib.Transition
import Lpm.Composer.Drafts

set_option autoImplicit false

open Transition

namespace Lpm.Composer

open List Option Function

/-- The window, and for each history key the object and the draft saved last under it, as far
as it was not deleted since. -/
structure World where
  state : State
  saved : String → Option (ℕ × ComposerDraft)

inductive Event where
  | save (terminalId : String) (object : ℕ) (draft : ComposerDraft) (historyKey : Option String)
  | close (io : Access) (terminalId : String)
  | delete (io : Access) (terminalId historyKey : String)
  | load (io : Access) (terminalId : String) (historyKey : Option String)
  | fire (io : Access) (historyKey : String)
  | flush (io : Access)

variable (w : World)

def World.next : Event → World
  | .save terminalId object draft historyKey =>
    { state := w.state.saveComposerDraft terminalId object draft historyKey
      saved := match given historyKey with
        | some key => update w.saved key (some (object, draft))
        | none => w.saved }
  | .close io terminalId => { w with state := w.state.forgetComposerDraft io terminalId none }
  | .delete io terminalId historyKey =>
    { state := w.state.forgetComposerDraft io terminalId (some historyKey)
      saved := update w.saved historyKey none }
  | .load io terminalId historyKey =>
    { w with state := (w.state.loadComposerDraft io terminalId historyKey).1 }
  | .fire io historyKey => { w with state := w.state.fire io historyKey }
  | .flush io => { w with state := w.state.flushPending io }

/-- A window that opens: nothing in memory, anything on disk. -/
structure Opened (w : World) : Prop where
  pending : w.state.pending = ∅
  drafts : ∀ terminalId, w.state.drafts terminalId = none
  saved : ∀ key, w.saved key = none

def composer : System World Event where
  init := Opened
  step w e w' := w' = w.next e

/-- A recalled tab put back to what was typed. -/
def collapsed (tab : ComposerInputTab) : ComposerInputTab :=
  if tab.histIdx ≥ 0 then
    { tab with
      text := (tab.stash.map (·.text)).getD []
      imagePaths := (tab.stash.map (·.images)).getD ∅
      histIdx := -1
      stash := none }
  else { tab with histIdx := -1, stash := none }

/-- The same prompts in the same order and the same one active. -/
def Same (draft loaded : ComposerDraft) : Prop :=
  loaded.tabs.map collapsed = draft.tabs.map collapsed ∧ loaded.activeTabId = draft.activeTabId

/-- A composer's object is saved under one key, and a write finds a storage that takes it. -/
def Sound : Event → Prop
  | .save _ object _ historyKey =>
    ∀ key draft, w.saved key = some (object, draft) → given historyKey = some key
  | .fire io historyKey => io.there = true ∧ io.room historyKey = true
  | .flush io => io.there = true ∧ ∀ key, io.room key = true
  | _ => True

/-- What a terminal has in memory is the object saved last under the key. One that has nothing
asks the disk, which has what was written: of this key nothing waits to be, and the draft says
something and has its active tab. -/
def Found (io : Access) (terminalId historyKey : String) (object : ℕ)
    (draft : ComposerDraft) : Prop :=
  match w.state.drafts terminalId with
  | some held => held = object
  | none =>
    w.state.pending.lookup historyKey = none ∧ io.there = true ∧
      isEmpty (draft.tabs.map collapseTab) = false ∧ draft.activeTabId ∈ draft.tabs.map (·.id)

/-! ## Tabs to disk and back -/

variable (tab : ComposerInputTab)

theorem restoreTab_collapseTab :
    restoreTab (collapseTab tab) = collapsed tab := by
  rw [restoreTab, collapseTab, collapsed]
  split_ifs
  · rfl
  · rfl

theorem collapsed_idem : collapsed (collapsed tab) = collapsed tab := by
  by_cases h : tab.histIdx ≥ 0
  · simp [collapsed, h]
  · simp [collapsed, h]

theorem collapseTab_id : (collapseTab tab).id = tab.id := by
  rw [collapseTab]
  split_ifs
  · rfl
  · rfl

/-- What a write leaves of a draft: nothing of one that says nothing. -/
def OnDisk (entry : Option (Option PersistedDraft)) (draft : ComposerDraft) : Prop :=
  if isEmpty (draft.tabs.map collapseTab) then entry = none
  else ∃ at_, entry = some (some { at_, activeTabId := draft.activeTabId, tabs := draft.tabs.map collapseTab })

/-- What was written reads as the draft. -/
theorem restoreDraft_of_written (draft : ComposerDraft) (at_ : Option ℕ) (hne : draft.tabs ≠ [])
    (hactive : draft.activeTabId ∈ draft.tabs.map (·.id)) :
    ∃ loaded, restoreDraft { at_, activeTabId := draft.activeTabId, tabs := draft.tabs.map collapseTab }
        = some loaded ∧ Same draft loaded := by
  have hids : ((draft.tabs.map collapseTab).any fun t => t.id = draft.activeTabId) = true := by
    rw [List.any_map, List.any_eq_true]
    obtain ⟨tab, htab, hid⟩ := List.mem_map.mp hactive
    exact ⟨tab, htab, decide_eq_true ((collapseTab_id tab).trans hid)⟩
  have htabs : ((draft.tabs.map collapseTab).map restoreTab).map collapsed
      = draft.tabs.map collapsed := by
    rw [List.map_map, List.map_map]
    refine map_congr_left (fun tab _ => ?_)
    simp only [comp_apply]
    rw [restoreTab_collapseTab, collapsed_idem]
  cases htab : draft.tabs with
  | nil => exact absurd htab hne
  | cons first rest =>
      rw [htab] at hids htabs
      refine ⟨_, rfl, ?_, ?_⟩
      · rw [htab]
        exact htabs
      · exact if_pos hids

/-! ## What is on disk -/

/-- The draft is on disk, and no sweep is to come. -/
def Written (s : State) (key : String) (draft : ComposerDraft) : Prop :=
  s.pruned = true ∧ OnDisk (s.disk key) draft

section
variable {s : State} {io : Access}

theorem written_write (key : String) (draft : ComposerDraft) (hthere : io.there = true)
    (hroom : io.room key = true) : Written (s.write io key draft) key draft := by
  have hpruned := (prune_frame s io.now).2.2.2
  rw [State.write, if_pos hthere]
  dsimp only
  by_cases hempty : isEmpty (draft.tabs.map collapseTab) = true
  · rw [hempty, Bool.or_true, if_pos rfl]
    refine ⟨hpruned, ?_⟩
    rw [OnDisk, if_pos hempty]
    exact update_self _ _ _
  · have htabs : (draft.tabs.map collapseTab).isEmpty = false := by
      by_contra hnil
      rw [Bool.not_eq_false, List.isEmpty_iff] at hnil
      exact hempty (by rw [hnil]; rfl)
    rw [htabs, Bool.false_or, if_neg hempty, if_pos hroom]
    refine ⟨hpruned, ?_⟩
    rw [OnDisk, if_neg hempty]
    exact ⟨some io.now, update_self _ _ _⟩

theorem Written.write_other {key other : String} {draft d : ComposerDraft} (h : Written s other d)
    (hother : other ≠ key) : Written (s.write io key draft) other d := by
  obtain ⟨hpruned, hdisk⟩ := Composer.write_other s io key draft hother h.1
  exact ⟨hpruned, by rw [hdisk]; exact h.2⟩

theorem writes_frame (writes : List (Sigma fun _ : String => ℕ)) : ∀ s : State,
    (writes.foldl (fun s entry => s.write io entry.1 (s.objects entry.2)) s).objects = s.objects ∧
    (writes.foldl (fun s entry => s.write io entry.1 (s.objects entry.2)) s).drafts = s.drafts := by
  induction writes with
  | nil =>
      intro s
      exact ⟨rfl, rfl⟩
  | cons entry writes ih =>
      intro s
      obtain ⟨hobjects, hdrafts⟩ := ih (s.write io entry.1 (s.objects entry.2))
      obtain ⟨hobjects', hdrafts', -⟩ := write_frame s io entry.1 (s.objects entry.2)
      exact ⟨hobjects.trans hobjects', hdrafts.trans hdrafts'⟩

/-- Writing what is pending leaves on disk what waited and what was there. -/
theorem written_writes (hthere : io.there = true) (hroom : ∀ key, io.room key = true) (key : String)
    (draft : ComposerDraft) (writes : List (Sigma fun _ : String => ℕ)) : ∀ s : State,
    (∀ entry ∈ writes, entry.1 = key → s.objects entry.2 = draft) →
    (Written s key draft ∨ ∃ entry ∈ writes, entry.1 = key) →
    Written (writes.foldl (fun s entry => s.write io entry.1 (s.objects entry.2)) s) key draft := by
  induction writes with
  | nil =>
      intro s _ h
      exact h.resolve_right (fun ⟨_, hin, _⟩ => absurd hin not_mem_nil)
  | cons entry writes ih =>
      intro s hdraft h
      rw [foldl_cons]
      have hobjects := (write_frame s io entry.1 (s.objects entry.2)).1
      refine ih _ (fun e he hkey => ?_) ?_
      · rw [hobjects]
        exact hdraft e (mem_cons_of_mem _ he) hkey
      · by_cases hkey : entry.1 = key
        · have heq := hdraft entry mem_cons_self hkey
          rw [heq, hkey]
          exact .inl (written_write key draft hthere (hroom key))
        · rcases h with h | ⟨e, he, hek⟩
          · exact .inl (h.write_other (Ne.symm hkey))
          · rcases mem_cons.mp he with rfl | he
            · exact absurd hek hkey
            · exact .inr ⟨e, he, hek⟩

end

/-! ## The invariant -/

structure Inv (w : World) : Prop where
  current : ∀ key object draft, w.saved key = some (object, draft) →
    w.state.objects object = draft ∧ key ≠ ""
  waiting : ∀ key object, w.state.pending.lookup key = some object →
    ∃ draft, w.saved key = some (object, draft)
  written : ∀ key object draft, w.saved key = some (object, draft) →
    w.state.pending.lookup key = none → Written w.state key draft

theorem Opened.inv {w : World} (h : Opened w) : Inv w := by
  refine ⟨fun key object draft hsaved => ?_, fun key object hpending => ?_,
    fun key object draft hsaved => ?_⟩
  · rw [h.saved] at hsaved
    exact absurd hsaved.symm (some_ne_none _)
  · rw [h.pending, AList.lookup_empty] at hpending
    exact absurd hpending.symm (some_ne_none _)
  · rw [h.saved] at hsaved
    exact absurd hsaved.symm (some_ne_none _)

theorem given_some {historyKey : Option String} {key : String} (h : given historyKey = some key) :
    historyKey = some key ∧ key ≠ "" := by
  rw [given, filter_eq_some_iff] at h
  exact ⟨h.1, by simpa using h.2⟩

theorem given_of_ne {key : String} (h : key ≠ "") : given (some key) = some key := by
  rw [given, filter_some, if_pos (by simpa using h)]

section
variable {w : World}

theorem Inv.save (hi : Inv w) (terminalId : String) (object : ℕ) (draft : ComposerDraft)
    (historyKey : Option String)
    (hsound : Sound w (.save terminalId object draft historyKey)) :
    Inv (w.next (.save terminalId object draft historyKey)) := by
  -- what was saved last with another object stands as it stood
  have hother : ∀ key object' draft', w.saved key = some (object', draft') →
      given historyKey ≠ some key → update w.state.objects object draft object' = draft' := by
    intro key object' draft' hsaved hkey
    rw [update_of_ne]
    · exact (hi.current key object' draft' hsaved).1
    · intro heq
      subst heq
      exact hkey (hsound key draft' hsaved)
  cases hgiven : given historyKey with
  | none =>
      rw [World.next, State.saveComposerDraft, hgiven]
      refine ⟨fun key object' draft' hsaved => ?_, hi.waiting, hi.written⟩
      refine ⟨hother key object' draft' hsaved ?_, (hi.current key object' draft' hsaved).2⟩
      rw [hgiven]
      exact (some_ne_none key).symm
  | some given_key =>
      have hne := (given_some hgiven).2
      rw [World.next, State.saveComposerDraft, hgiven]
      simp only [State.schedulePersistDraft]
      refine ⟨fun key object' draft' hsaved => ?_, fun key object' hpending => ?_,
        fun key object' draft' hsaved hpending => ?_⟩
      · by_cases hkey : key = given_key
        · subst hkey
          simp only [update_self, some.injEq, Prod.mk.injEq] at hsaved
          obtain ⟨rfl, rfl⟩ := hsaved
          exact ⟨update_self _ _ _, hne⟩
        · simp only [update_of_ne hkey] at hsaved
          refine ⟨hother key object' draft' hsaved ?_, (hi.current key object' draft' hsaved).2⟩
          rw [hgiven]
          exact fun h => hkey (some.inj h).symm
      · by_cases hkey : key = given_key
        · subst hkey
          simp only [AList.lookup_insert, some.injEq] at hpending
          subst hpending
          exact ⟨draft, update_self _ _ _⟩
        · simp only [AList.lookup_insert_ne hkey] at hpending
          obtain ⟨draft', hsaved⟩ := hi.waiting key object' hpending
          exact ⟨draft', by simp only [update_of_ne hkey]; exact hsaved⟩
      · by_cases hkey : key = given_key
        · subst hkey
          simp only [AList.lookup_insert] at hpending
          exact absurd hpending (some_ne_none _)
        · simp only [AList.lookup_insert_ne hkey] at hpending
          simp only [update_of_ne hkey] at hsaved
          exact hi.written key object' draft' hsaved hpending

theorem Inv.delete (hi : Inv w) (io : Access) (terminalId historyKey : String) :
    Inv (w.next (.delete io terminalId historyKey)) := by
  have hsaved' : ∀ key object draft,
      (update w.saved historyKey none) key = some (object, draft) →
      key ≠ historyKey ∧ w.saved key = some (object, draft) := by
    intro key object draft hsaved
    by_cases hkey : key = historyKey
    · subst hkey
      rw [update_self] at hsaved
      exact absurd hsaved.symm (some_ne_none _)
    · rw [update_of_ne hkey] at hsaved
      exact ⟨hkey, hsaved⟩
  obtain hgiven | hgiven : given (some historyKey) = none ∨ given (some historyKey) = some historyKey := by
    by_cases hne : historyKey = ""
    · exact .inl (by rw [hne]; rfl)
    · exact .inr (given_of_ne hne)
  -- no draft is under the empty key
  · have hkeys : ∀ key object draft, w.saved key = some (object, draft) → key ≠ historyKey := by
      intro key object draft hsaved heq
      rw [heq] at hsaved
      rw [given_of_ne (heq ▸ (hi.current key object draft (heq ▸ hsaved)).2)] at hgiven
      exact absurd hgiven (some_ne_none _)
    rw [World.next, State.forgetComposerDraft, hgiven]
    refine ⟨fun key object draft hsaved => ?_, fun key object hpending => ?_,
      fun key object draft hsaved hpending => ?_⟩
    · exact hi.current key object draft (hsaved' key object draft hsaved).2
    · obtain ⟨draft, hsaved⟩ := hi.waiting key object hpending
      refine ⟨draft, ?_⟩
      simp only [update_of_ne (hkeys key object draft hsaved)]
      exact hsaved
    · exact hi.written key object draft (hsaved' key object draft hsaved).2 hpending
  · rw [World.next, State.forgetComposerDraft, hgiven]
    simp only
    -- the draft goes from what is pending and from the disk
    obtain ⟨hobjects, hpending'⟩ := deletePersistedDraft_frame
      { w.state with drafts := update w.state.drafts terminalId none } io historyKey
    refine ⟨fun key object draft hsaved => ?_, fun key object hpending => ?_,
      fun key object draft hsaved hpending => ?_⟩
    · simp only [hobjects]
      exact hi.current key object draft (hsaved' key object draft hsaved).2
    · simp only [hpending'] at hpending
      by_cases hkey : key = historyKey
      · subst hkey
        rw [AList.lookup_erase] at hpending
        exact absurd hpending.symm (some_ne_none _)
      · rw [AList.lookup_erase_ne hkey] at hpending
        obtain ⟨draft, hsaved⟩ := hi.waiting key object hpending
        exact ⟨draft, by simp only [update_of_ne hkey]; exact hsaved⟩
    · obtain ⟨hkey, hsaved⟩ := hsaved' key object draft hsaved
      simp only [hpending', AList.lookup_erase_ne hkey] at hpending
      obtain ⟨hpruned, hdisk⟩ := hi.written key object draft hsaved hpending
      obtain ⟨hpruned', hdisk'⟩ := deletePersistedDraft_other
        { w.state with drafts := update w.state.drafts terminalId none } io historyKey hkey
        hpruned
      exact ⟨hpruned', by rw [hdisk']; exact hdisk⟩

/-- What was written reads as a draft, so a load leaves it. -/
theorem OnDisk.readable {entry : Option (Option PersistedDraft)} {draft : ComposerDraft}
    (h : OnDisk entry draft) : ∀ e, entry = some e → (e.bind restoreDraft).isSome = true := by
  intro e he
  rw [OnDisk] at h
  split_ifs at h with hempty
  · rw [h] at he
    exact absurd he.symm (some_ne_none _)
  · obtain ⟨at_, h⟩ := h
    rw [h, some.injEq] at he
    subst he
    cases htabs : draft.tabs with
    | nil => exact absurd (by rw [htabs]; rfl) hempty
    | cons first rest => rfl

theorem Inv.load (hi : Inv w) (io : Access) (terminalId : String) (historyKey : Option String) :
    Inv (w.next (.load io terminalId historyKey)) := by
  rw [World.next, State.loadComposerDraft]
  cases hdrafts : w.state.drafts terminalId with
  | some object => exact hi
  | none =>
      cases hgiven : given historyKey with
      | none => exact hi
      | some key =>
          simp only
          obtain ⟨hobjects, hpending⟩ := loadPersistedDraft_frame w.state io key
          refine ⟨?_, ?_, fun other object draft hsaved hnone => ?_⟩
          · simp only [hobjects]
            exact hi.current
          · simp only [hpending]
            exact hi.waiting
          · simp only [hpending] at hnone
            obtain ⟨hpruned, hdisk⟩ := hi.written other object draft hsaved hnone
            obtain ⟨hpruned', hdisk'⟩ := loadPersistedDraft_keeps w.state io key hpruned hdisk.readable
            exact ⟨hpruned', by rw [hdisk']; exact hdisk⟩

theorem Inv.fire (hi : Inv w) (io : Access) (historyKey : String) (hthere : io.there = true)
    (hroom : io.room historyKey = true) : Inv (w.next (.fire io historyKey)) := by
  have herase : ∀ key object, (w.state.pending.erase historyKey).lookup key = some object →
      w.state.pending.lookup key = some object := by
    intro key object h
    by_cases hkey : key = historyKey
    · rw [hkey, AList.lookup_erase] at h
      exact absurd h.symm (some_ne_none _)
    · rwa [AList.lookup_erase_ne hkey] at h
  rw [World.next, State.fire]
  cases hpending : w.state.pending.lookup historyKey with
  | none =>
      refine ⟨hi.current, fun key object h => hi.waiting key object (herase key object h),
        fun key object draft hsaved hnone => ?_⟩
      refine hi.written key object draft hsaved ?_
      by_cases hkey : key = historyKey
      · rw [hkey]
        exact hpending
      · simp only [AList.lookup_erase_ne hkey] at hnone
        exact hnone
  | some object =>
      simp only
      obtain ⟨hobjects, -, hpending'⟩ := write_frame
        { w.state with pending := w.state.pending.erase historyKey } io historyKey
        (w.state.objects object)
      refine ⟨?_, fun key object h => ?_, fun key object' draft hsaved hnone => ?_⟩
      · simp only [hobjects]
        exact hi.current
      · simp only [hpending'] at h
        exact hi.waiting key object (herase key object h)
      -- the draft that fires is written; the others keep what they had
      · by_cases hkey : key = historyKey
        · subst hkey
          obtain ⟨draft', hsaved'⟩ := hi.waiting key object hpending
          have hobject := (hi.current key object draft' hsaved').1
          rw [hsaved] at hsaved'
          simp only [some.injEq, Prod.mk.injEq] at hsaved'
          rw [hobject, ← hsaved'.2]
          exact written_write key draft hthere hroom
        · simp only [hpending', AList.lookup_erase_ne hkey] at hnone
          exact Written.write_other (s := { w.state with pending := w.state.pending.erase historyKey })
            (hi.written key object' draft hsaved hnone) hkey

theorem Inv.flush (hi : Inv w) (io : Access) (hthere : io.there = true)
    (hroom : ∀ key, io.room key = true) : Inv (w.next (.flush io)) := by
  rw [World.next, State.flushPending]
  have hobjects := (@writes_frame io w.state.pending.entries w.state).1
  refine ⟨?_, fun key object h => ?_, fun key object draft hsaved _ => ?_⟩
  · simp only [hobjects]
    exact hi.current
  · simp only [AList.lookup_empty] at h
    exact absurd h.symm (some_ne_none _)
  · refine written_writes hthere hroom key draft w.state.pending.entries w.state
      (fun entry hentry hkey => ?_) ?_
    · obtain ⟨entry_key, entry_object⟩ := entry
      have hlookup := AList.mem_lookup_iff.mpr hentry
      obtain ⟨draft', hsaved'⟩ := hi.waiting entry_key entry_object hlookup
      have hobject := (hi.current entry_key entry_object draft' hsaved').1
      have heq : entry_key = key := hkey
      have hboth := (heq ▸ hsaved').symm.trans hsaved
      simp only [some.injEq, Prod.mk.injEq] at hboth
      exact hobject.trans hboth.2
    · cases hpending : w.state.pending.lookup key with
      | none => exact .inl (hi.written key object draft hsaved hpending)
      | some object' => exact .inr ⟨⟨key, object'⟩, AList.mem_lookup_iff.mp hpending, rfl⟩

theorem Inv.next (hi : Inv w) (e : Event) (hsound : Sound w e) : Inv (w.next e) := by
  cases e with
  | save terminalId object draft historyKey => exact hi.save terminalId object draft historyKey hsound
  | close io terminalId => exact ⟨hi.current, hi.waiting, hi.written⟩
  | delete io terminalId historyKey => exact hi.delete io terminalId historyKey
  | load io terminalId historyKey => exact hi.load io terminalId historyKey
  | fire io historyKey => exact hi.fire io historyKey hsound.1 hsound.2
  | flush io => exact hi.flush io hsound.1 hsound.2

end

/-- A draft saved under a history key is loaded by it, by a terminal that has the object in
memory, or by one that has nothing there once what waited was written. -/
theorem draft_survives {w : World} (h : Reachable (composer.when Sound) w) (io : Access)
    (terminalId key : String) (object : ℕ) (draft : ComposerDraft)
    (hsaved : w.saved key = some (object, draft)) (hfound : Found w io terminalId key object draft) :
    ∃ loaded, (w.state.loadComposerDraft io terminalId (some key)).2 = some loaded ∧
      Same draft loaded := by
  have hi : Inv w := by
    refine Reachable.invariant ?_ ?_ h
    · intro w hw
      exact Opened.inv hw
    · intro w e w' hi hstep
      rw [hstep.2]
      exact hi.next e hstep.1
  obtain ⟨hobject, hne⟩ := hi.current key object draft hsaved
  rw [Found.eq_def] at hfound
  rw [State.loadComposerDraft]
  cases hdrafts : w.state.drafts terminalId with
  | some held =>
      rw [hdrafts] at hfound
      have heq : held = object := hfound
      refine ⟨w.state.objects held, rfl, ?_⟩
      rw [heq, hobject]
      exact ⟨rfl, rfl⟩
  | none =>
      rw [hdrafts] at hfound
      obtain ⟨hpending, hthere, hsays, hactive⟩ := hfound
      obtain ⟨hpruned, hdisk⟩ := hi.written key object draft hsaved hpending
      rw [OnDisk, hsays, if_neg Bool.false_ne_true] at hdisk
      obtain ⟨at_, hdisk⟩ := hdisk
      have htabs : draft.tabs ≠ [] := fun hnil => by
        rw [hnil] at hactive
        exact absurd hactive not_mem_nil
      obtain ⟨loaded, hloaded, hsame⟩ := restoreDraft_of_written draft at_ htabs hactive
      refine ⟨loaded, ?_, hsame⟩
      rw [given_of_ne hne]
      simp only [State.loadPersistedDraft]
      rw [if_pos hthere, prune_pruned _ hpruned, hdisk]
      simp only [bind_some, hloaded]

/-! ## A tab that gets another terminal -/

def typed : ComposerDraft :=
  { tabs := [{ id := "a", text := ['h', 'i'], imagePaths := ∅, imgCounter := 0, histIdx := -1, stash := none }]
    activeTabId := "a"
    history := [] }

def opened_world : World :=
  { state := {
      objects := fun _ => typed
      drafts := fun _ => none
      pending := ∅
      pruned := false
      disk := fun _ => none }
    saved := fun _ => none }

def working : Access := { now := 0, there := true, room := fun _ => true }

/-- A draft is saved, and its terminal is closed with the history kept. -/
def closed_world : World :=
  (opened_world.next (.save "pty-1" 0 typed (some "tab"))).next (.close working "pty-1")

theorem opened_world_opened : Opened opened_world := ⟨rfl, fun _ => rfl, fun _ => rfl⟩

theorem closed_world_reached : Reachable (composer.when Sound) closed_world := by
  have h1 : Reachable (composer.when Sound)
      (opened_world.next (.save "pty-1" 0 typed (some "tab"))) :=
    .next (a := Event.save "pty-1" 0 typed (some "tab")) (.start opened_world_opened)
      ⟨fun _ _ h => (some_ne_none _ h.symm).elim, rfl⟩
  exact .next (a := Event.close working "pty-1") h1 ⟨trivial, rfl⟩

/-- Half a second later the new terminal finds it. -/
theorem draft_survives_written :
    ∃ loaded, ((closed_world.next (.fire working "tab")).state.loadComposerDraft working "pty-2"
        (some "tab")).2 = some loaded ∧ Same typed loaded :=
  draft_survives (.next (a := Event.fire working "tab") closed_world_reached ⟨⟨rfl, rfl⟩, rfl⟩)
    working "pty-2" "tab" 0 typed rfl ⟨rfl, rfl, by decide, by decide⟩

/-- Until then it does not. -/
theorem draft_lost_while_pending : ∃ w, Reachable composer w ∧ w.saved "tab" = some (0, typed) ∧
    (w.state.loadComposerDraft working "pty-2" (some "tab")).2 = none := by
  refine ⟨closed_world, ?_, rfl, rfl⟩
  have h1 : Reachable composer (opened_world.next (.save "pty-1" 0 typed (some "tab"))) :=
    .next (a := Event.save "pty-1" 0 typed (some "tab")) (.start opened_world_opened) rfl
  exact .next (a := Event.close working "pty-1") h1 rfl

end Lpm.Composer
