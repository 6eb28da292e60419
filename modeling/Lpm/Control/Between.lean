/-
What each step leaves of the agreement between the host and a Mac.
-/
import Lpm.Control.Agree

set_option autoImplicit false

open RustText Transition

namespace Lpm.Control

open List

section
variable {s s' : State} {id m : Str} {task : Task} {who : Owner} {op : Op} {owner : Option Owner}

/-! ## The Mac's end -/

theorem elsewhere_isNone : (s.elsewhere m owner).isNone = true ↔
    owner = none ∨ owner.map Owner.key = some (Kind.peer, m) := by
  rw [State.elsewhere]
  cases owner with
  | none => simp
  | some o => by_cases h : o.key = (Kind.peer, m) <;> simp [Option.filter, h]

variable (h : Side s id m)
include h

/-- The Mac takes in an `owner` frame. -/
theorem Side.hold {elsewhere : Option Str} {rest : List (Option Str)}
    (hdown : (s.term id).down m = elsewhere :: rest) (htodo : ((s.term id).mac m).todo = [])
    (hmac : (s'.term id).mac m = ((s.term id).mac m).note_away elsewhere) (hdown' : (s'.term id).down m = rest)
    (hhost : (s'.term id).host = (s.term id).host) (hup : (s'.term id).up m = (s.term id).up m)
    (hlink : s'.link m = s.link m) (hended : s'.ended m = s.ended m)
    (hattached : s'.attached m id = s.attached m id) (hname : s'.host_name = s.host_name) : Side s' id m := by
  have hkeys : ((s'.term id).mac m).shown.keys = ((s.term id).mac m).shown.keys := by
    rw [hmac]
    exact Shown.hold_away_keys
  have hsent : ((s'.term id).mac m).sending = [] := by rw [hmac, note_away_sending htodo]
  refine h.keep hlink hended (fun ha => hattached ▸ ha) (fun hl => ?_) (by rw [hkeys]) (fun f hf => ?_)
    (fun _ => ?_) (by rw [hhost]) fun _ _ hP hiff => ?_
  · rw [(h.idle hl).2] at hdown
    exact nomatch hdown
  · rw [hsent] at hf
    exact absurd hf not_mem_nil
  · rw [Term.coming, Term.coming, hup, hsent, Machine.sending, htodo]
    rfl
  · have haway : ((s'.term id).mac m).shown.away.isNone = elsewhere.isNone := by
      rw [hmac]
      unfold Machine.note_away Shown.hold_away
      dsimp only
      rw [if_neg fun hp => hP (Shown.keys_eq_nil.mpr hp)]
      cases elsewhere <;> rfl
    rw [hhost, ← hiff, State.comes_to_hold, State.comes_to_hold, State.arriving, State.arriving, hdown, hdown',
      hhost, frames_congr (by rw [hhost]) hlink hname, haway]
    rfl

/-- The Mac's task is done: what it had to forward is on its way. -/
theorem Side.mac_tells {task : Task} (htodo : ((s.term id).mac m).todo = [task])
    (hmac : (s'.term id).mac m = ((s.term id).mac m).tells 0 task)
    (hup : (s'.term id).up m = (s.term id).up m ++ if s.link m = none then [] else task.sends)
    (hhost : (s'.term id).host = (s.term id).host) (hdown : (s'.term id).down m = (s.term id).down m)
    (hlink : s'.link m = s.link m) (hended : s'.ended m = s.ended m)
    (hattached : s'.attached m id = s.attached m id) (hname : s'.host_name = s.host_name) : Side s' id m := by
  have hshown : ((s'.term id).mac m).shown = ((s.term id).mac m).shown := by rw [hmac]; rfl
  have hsent : ((s'.term id).mac m).sending = [] := by
    rw [hmac]
    change (((s.term id).mac m).todo.eraseIdx 0).flatMap Task.sends = []
    rw [htodo]
    rfl
  refine h.keep hlink hended (fun ha => hattached ▸ ha) (fun hl => ?_) (by rw [hshown]) (fun f hf => ?_)
    (fun hl => ?_) (by rw [hhost]) fun _ _ _ hiff => ?_
  · rw [hup, if_pos hl, append_nil]
    exact ⟨rfl, hdown⟩
  · rw [hsent] at hf
    exact absurd hf not_mem_nil
  · rw [Term.coming, Term.coming, hup, if_neg hl, hsent, Machine.sending, htodo, flatMap_singleton,
      append_nil]
  · rw [hhost, ← hiff, State.comes_to_hold, State.comes_to_hold, State.arriving, State.arriving, hdown, hhost,
      frames_congr (by rw [hhost]) hlink hname, hshown]

/-- A terminal is closed that no window of the Mac shows. -/
theorem Side.detach (hempty : ((s.term id).mac m).shown.keys = [])
    (hmac : (s'.term id).mac m = (s.term id).mac m)
    (hup : (s'.term id).up m = (s.term id).up m ++ if s.link m = none then [] else [Frame.unsub])
    (hhost : (s'.term id).host = (s.term id).host) (hdown : (s'.term id).down m = (s.term id).down m)
    (hlink : s'.link m = s.link m) (hended : s'.ended m = s.ended m) : Side s' id m := by
  have hempty' : ((s'.term id).mac m).shown.keys = [] := by rw [hmac, hempty]
  have hleaves : ∀ f ∈ ((s.term id).mac m).sending, f.leaves = true := fun f hf => by
    rw [h.forwards f hf, decide_eq_true hempty]
  have hcoming : s.link m ≠ none → (s'.term id).coming m =
      (s.term id).up m ++ [Frame.unsub] ++ ((s.term id).mac m).sending := fun hl => by
    rw [Term.coming, hup, if_neg hl, hmac]
  refine h.says hlink hended (fun hl => ?_) (fun f hf => ?_) (fun hP => absurd hempty' hP) (fun hl => ?_)
    (fun hl => ?_) (fun hin => by rw [← hhost]; exact hin)
  · rw [hup, if_pos hl, append_nil]
    exact ⟨rfl, hdown⟩
  · rw [hmac] at hf
    rw [decide_eq_true hempty']
    exact hleaves f hf
  · rw [hcoming hl]
    simp
  · rw [hcoming hl, latest_append, latest_concat, decide_eq_true hempty']
    exact latest_const hleaves

/-! ## The host's end -/

omit h in
/-- A Mac that did not ask gets what is told to all who show the terminal. -/
theorem frames_of_no_reply {t : Term} (hreply : ∀ to_ conn, task.reply = some (to_, conn) → to_ ≠ m)
    (hshows : (Kind.peer, m) ∈ t.host.shown.keys) (hl : s.link m ≠ none) :
    s.frames t m task = if task.changed then [s.elsewhere m task.owner] else [] := by
  have hpush : (task.changed = true ∧ (Kind.peer, m) ∈ t.host.shown.keys ∧ s.link m ≠ none) ↔
      task.changed = true := ⟨And.left, fun hc => ⟨hc, hshows, hl⟩⟩
  unfold State.frames
  rw [if_congr hpush rfl rfl]
  cases hr : task.reply with
  | none => exact append_nil _
  | some r =>
    obtain ⟨to_, conn⟩ := r
    have hnot : ¬ (to_ = m ∧ s.link m = some conn) := fun hc => hreply to_ conn hr hc.1
    dsimp only
    rw [if_neg hnot, append_nil]

/-- Somebody else does something at the host, and its surfaces and Macs are to be told. -/
theorem Side.host (htodo : (s.term id).host.todo = [])
    (hkeys : (Kind.peer, m) ∈ (s'.term id).host.shown.keys ↔ (Kind.peer, m) ∈ (s.term id).host.shown.keys)
    (htells : (s'.term id).host.todo = [] ∧ (s'.term id).host.shown.holder = (s.term id).host.shown.holder ∨
      ∃ task, (s'.term id).host.todo = [task] ∧ task.owner.map Owner.key = (s'.term id).host.shown.holder ∧
        (task.changed = true ↔ (s.term id).host.shown.holder ≠ (s'.term id).host.shown.holder) ∧
        ∀ to_ conn, task.reply = some (to_, conn) → to_ ≠ m)
    (hmac : (s'.term id).mac m = (s.term id).mac m) (hup : (s'.term id).up m = (s.term id).up m)
    (hdown : (s'.term id).down m = (s.term id).down m) (hlink : s'.link m = s.link m)
    (hended : s'.ended m = s.ended m) (hattached : s'.attached m id = s.attached m id) : Side s' id m := by
  refine h.keep hlink hended (fun ha => hattached ▸ ha) (fun _ => ⟨hup, hdown⟩) (by rw [hmac]) (fun f hf => hmac ▸ hf)
    (fun _ => by rw [Term.coming, Term.coming, hup, hmac]) hkeys fun hl hm _ hiff => ?_
  have hold : s.arriving id m = (s.term id).down m := by
    rw [State.arriving, htodo, flatMap_nil, append_nil]
  rcases htells with ⟨hnone, hsame⟩ | ⟨task, htask, howner, hchanged, hreply⟩
  · rw [hsame, ← hiff, State.comes_to_hold, State.comes_to_hold, hold, hmac, State.arriving, hnone, hdown,
      flatMap_nil, append_nil]
  · have hframes : s'.frames (s'.term id) m task = if task.changed then [s'.elsewhere m task.owner] else [] :=
      frames_of_no_reply hreply (hkeys.mpr hm) (hlink ▸ hl)
    rw [State.comes_to_hold, State.arriving, htask, flatMap_singleton, hframes, hdown, hmac]
    by_cases hc : task.changed = true
    · rw [if_pos hc, latest_concat, elsewhere_isNone, ← howner]
      refine or_iff_right fun hn => ?_
      rw [hn] at howner
      have hempty := Shown.holder_eq_none.mp howner.symm
      exact absurd (hkeys.mpr hm) (by rw [hempty]; exact not_mem_nil)
    · have hsame : (s.term id).host.shown.holder = (s'.term id).host.shown.holder :=
        not_not.mp fun hne => hc (hchanged.mpr hne)
      rw [if_neg hc, append_nil, ← hsame, ← hiff, State.comes_to_hold, hold]

/-- The host's task is done. -/
theorem Side.host_tells (htodo : (s.term id).host.todo = [task])
    (hhost : (s'.term id).host = (s.term id).host.tells 0 task)
    (hdown : (s'.term id).down m = (s.term id).down m ++ s.frames (s.term id) m task)
    (hmac : (s'.term id).mac m = (s.term id).mac m) (hup : (s'.term id).up m = (s.term id).up m)
    (hlink : s'.link m = s.link m) (hended : s'.ended m = s.ended m)
    (hattached : s'.attached m id = s.attached m id) : Side s' id m := by
  have hshown : (s'.term id).host.shown = (s.term id).host.shown := by rw [hhost]; rfl
  have hdone : (s'.term id).host.todo = [] := by
    rw [hhost]
    change (s.term id).host.todo.eraseIdx 0 = []
    rw [htodo]
    rfl
  refine h.keep hlink hended (fun ha => hattached ▸ ha) (fun hl => ⟨hup, ?_⟩) (by rw [hmac]) (fun f hf => hmac ▸ hf)
    (fun _ => by rw [Term.coming, Term.coming, hup, hmac]) (by rw [hshown]) fun _ _ _ hiff => ?_
  · have hframes : s.frames (s.term id) m task = [] := by
      rw [State.frames, hl]
      cases task.reply <;> simp
    rw [hdown, hframes, append_nil]
  · rw [hshown, ← hiff, State.comes_to_hold, State.comes_to_hold, State.arriving, State.arriving, hmac, hdown, hdone,
      htodo, flatMap_nil, append_nil, flatMap_singleton]

/-- The host drops a frame of the Mac that says nothing new, or there is another one to come. -/
theorem Side.handle_more {frame : Frame} {rest : List Frame}
    (hup : (s.term id).up m = frame :: rest) (hmore : rest ++ ((s.term id).mac m).sending ≠ [])
    (hup' : (s'.term id).up m = rest) (hmac : (s'.term id).mac m = (s.term id).mac m)
    (hlink : s'.link m = s.link m) (hl : s.link m ≠ none)
    (hattached : s'.attached m id = s.attached m id) : Side s' id m := by
  have hcoming : (s'.term id).coming m = rest ++ ((s.term id).mac m).sending := by rw [Term.coming, hup', hmac]
  refine ⟨fun hl' => absurd (hlink ▸ hl') hl, fun f hf => ?_, fun hP => ?_, fun _ => ?_, fun _ hc => ?_, fun _ hc => ?_,
    fun _ hc => ?_, fun _ => Or.inl (hlink ▸ hl)⟩
  · rw [hmac] at hf ⊢
    exact h.forwards f hf
  · rw [hattached]
    exact h.attached (hmac ▸ hP)
  · have hlast := h.last hl
    rw [Term.coming, hup, cons_append, latest_cons] at hlast
    rw [hcoming, hmac, latest_of_ne_nil hmore frame.leaves, hlast]
  · exact absurd (hcoming ▸ hc) hmore
  · exact absurd (hcoming ▸ hc) hmore
  · exact absurd (hcoming ▸ hc) hmore

/-- The Mac has nothing more to say. Where it leaves, it is not among those who show the terminal;
where it came, it is, and is told who the owner is. -/
theorem Side.handle_last {frame : Frame} (hup : (s.term id).up m = [frame])
    (hnone : ((s.term id).mac m).sending = []) (hup' : (s'.term id).up m = [])
    (hmac : (s'.term id).mac m = (s.term id).mac m) (hlink : s'.link m = s.link m) (hl : s.link m ≠ none)
    (hattached : s'.attached m id = s.attached m id)
    (hleaves : frame.leaves = true → (Kind.peer, m) ∉ (s'.term id).host.shown.keys)
    (hcomes : frame.leaves = false → (Kind.peer, m) ∈ (s'.term id).host.shown.keys ∧
      ∃ owner, s'.arriving id m = (s'.term id).down m ++ [s'.elsewhere m owner] ∧
        owner.map Owner.key = (s'.term id).host.shown.holder) : Side s' id m := by
  have hlast := h.last hl
  rw [Term.coming, hup, hnone, append_nil] at hlast
  have htrue : frame.leaves = decide (((s.term id).mac m).shown.keys = []) := hlast
  have hcoming : (s'.term id).coming m = [] := by rw [Term.coming, hup', hmac, hnone]; rfl
  refine ⟨fun hl' => absurd (hlink ▸ hl') hl, fun f hf => ?_, fun hP => ?_, fun _ => ?_, fun _ _ hP => ?_,
    fun _ _ hP hm => ?_, fun _ _ hP => ?_, fun _ => Or.inl (hlink ▸ hl)⟩
  · rw [hmac] at hf ⊢
    exact h.forwards f hf
  · rw [hattached]
    exact h.attached (hmac ▸ hP)
  · rw [hcoming]
    rfl
  · rw [hmac] at hP
    exact (hcomes (htrue.trans (decide_eq_false hP))).1
  · rw [hmac] at hP
    exact absurd hm (hleaves (htrue.trans (decide_eq_true hP)))
  · rw [hmac] at hP
    obtain ⟨hm, owner, harriving, howner⟩ := hcomes (htrue.trans (decide_eq_false hP))
    rw [State.comes_to_hold, harriving, latest_concat, elsewhere_isNone, ← howner]
    refine or_iff_right fun hn => ?_
    rw [hn] at howner
    rw [Shown.holder_eq_none.mp howner.symm] at hm
    exact absurd hm not_mem_nil

/-! ## The connection -/

/-- A new connection is up, and the Mac presents again what it shows. -/
theorem Side.connect (hl : s.link m = none) (hl' : s'.link m ≠ none)
    (hup : (s'.term id).up m = (s.term id).up m ++
      if s.attached m id ∧ ((s.term id).mac m).shown.owner ≠ none then [.ctl .present] else [])
    (hmac : (s'.term id).mac m = (s.term id).mac m) (hhost : (s'.term id).host = (s.term id).host)
    (hended : s'.ended m = s.ended m) (hattached : s'.attached m id = s.attached m id) : Side s' id m := by
  rw [(h.idle hl).1, nil_append] at hup
  have hshows : ((s.term id).mac m).shown.owner ≠ none ↔ ((s.term id).mac m).shown.keys ≠ [] := by
    rw [ne_eq, Shown.owner_eq_none, ← Shown.keys_eq_nil]
  -- all frames to come say the same
  have hsay : ∀ f ∈ (s'.term id).coming m, f.leaves = decide (((s.term id).mac m).shown.keys = []) := fun f hf => by
    rw [Term.coming, hup, hmac] at hf
    rcases mem_append.mp hf with hf | hf
    · split at hf
      next hc =>
        rw [mem_singleton.mp hf, decide_eq_false (hshows.mp hc.2)]
        rfl
      next => exact absurd hf not_mem_nil
    · exact h.forwards f hf
  have hpresents : ((s.term id).mac m).shown.keys ≠ [] → (s'.term id).coming m ≠ [] := fun hP => by
    rw [Term.coming, hup, if_pos ⟨h.attached hP, hshows.mpr hP⟩]
    exact cons_ne_nil _ _
  refine ⟨fun hn => absurd hn hl', fun f hf => ?_, fun hP => ?_, fun _ => ?_, fun _ hc hP => ?_,
    fun _ _ _ hm => ?_, fun _ hc hP => ?_, fun _ => Or.inl hl'⟩
  · rw [hmac] at hf ⊢
    exact h.forwards f hf
  · rw [hattached]
    exact h.attached (hmac ▸ hP)
  · rw [hmac]
    exact latest_const hsay
  · exact absurd hc (hpresents (hmac ▸ hP))
  · rw [hended]
    exact (h.linked (hhost ▸ hm)).resolve_left fun hn => hn hl
  · exact absurd hc (hpresents (hmac ▸ hP))

theorem Side.cut (hl' : s'.link m = none) (hup : (s'.term id).up m = [])
    (hdown : (s'.term id).down m = []) (hmac : (s'.term id).mac m = (s.term id).mac m)
    (hended : s'.ended m = s.ended m + 1) (hattached : s'.attached m id = s.attached m id) : Side s' id m := by
  refine ⟨fun _ => ⟨hup, hdown⟩, fun f hf => ?_, fun hP => ?_, fun hn => absurd hl' hn, fun hn => absurd hl' hn,
    fun hn => absurd hl' hn, fun hn => absurd hl' hn, fun _ => Or.inr (hended ▸ Nat.succ_pos _)⟩
  · rw [hmac] at hf ⊢
    exact h.forwards f hf
  · rw [hattached]
    exact h.attached (hmac ▸ hP)

/-- The host lets go of the Mac's control. -/
theorem Side.notice
    (horderly : s.link m ≠ none → ((s.term id).mac m).shown.keys ≠ [] →
      (Kind.peer, m) ∈ (s.term id).host.shown.keys → (s.term id).coming m ≠ [])
    (hgone : (Kind.peer, m) ∉ (s'.term id).host.shown.keys)
    (hmac : (s'.term id).mac m = (s.term id).mac m) (hup : (s'.term id).up m = (s.term id).up m)
    (hdown : (s'.term id).down m = (s.term id).down m) (hlink : s'.link m = s.link m)
    (hattached : s'.attached m id = s.attached m id) : Side s' id m := by
  have hcoming : (s'.term id).coming m = (s.term id).coming m := by rw [Term.coming, Term.coming, hup, hmac]
  -- what the Mac shows and has nothing more to say of, it would lose
  have hnot : s.link m ≠ none → (s.term id).coming m = [] → ((s.term id).mac m).shown.keys ≠ [] → False :=
    fun hl hc hP => horderly hl hP (h.here hl hc hP) hc
  refine ⟨fun hl => ?_, fun f hf => ?_, fun hP => ?_, fun hl => ?_, fun hl hc hP => ?_, fun _ _ _ hm => absurd hm hgone,
    fun hl hc hP => ?_, fun hm => absurd hm hgone⟩
  · rw [hup, hdown]
    exact h.idle (hlink ▸ hl)
  · rw [hmac] at hf ⊢
    exact h.forwards f hf
  · rw [hattached]
    exact h.attached (hmac ▸ hP)
  · rw [hcoming, hmac]
    exact h.last (hlink ▸ hl)
  · exact (hnot (hlink ▸ hl) (hcoming ▸ hc) (hmac ▸ hP)).elim
  · exact (hnot (hlink ▸ hl) (hcoming ▸ hc) (hmac ▸ hP)).elim

end

end Lpm.Control
