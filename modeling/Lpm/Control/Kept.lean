/-
What an orderly run keeps, over all its steps.
-/
import Lpm.Control.Between

set_option autoImplicit false

open RustText Transition

namespace Lpm.Control

open Function (update update_of_ne update_self)
open List Option

/-- The surfaces of a Mac are its windows, and what holds the terminal elsewhere is none of them. -/
structure Machine.IsMac (mac : Machine) : Prop where
  windows : ∀ k ∈ mac.shown.keys, k.1 = .window ∨ k.1 = .mobile
  away : ∀ a, mac.shown.away = some a → a.kind = .away

/-- What holds in every state of an orderly run. -/
structure Good (s : State) : Prop where
  host : ∀ id, (s.term id).host.Ok
  mac : ∀ id m, ((s.term id).mac m).Ok
  side : ∀ id m, Side s id m
  /-- Nothing outranks the surfaces of the host. -/
  none_away : ∀ id, (s.term id).host.shown.away = none
  is_mac : ∀ id m, ((s.term id).mac m).IsMac

section
variable {s s' : State} {id m : Str} {who : Owner} {op : Op}

theorem Side.same (h : Side s id m) (hhost : (s'.term id).host = (s.term id).host)
    (hmac : (s'.term id).mac m = (s.term id).mac m) (hup : (s'.term id).up m = (s.term id).up m)
    (hdown : (s'.term id).down m = (s.term id).down m) (hlink : s'.link m = s.link m)
    (hended : s'.ended m = s.ended m) (hattached : s.attached m id = true → s'.attached m id = true)
    (hname : s'.host_name = s.host_name) : Side s' id m := by
  refine h.keep hlink hended hattached (fun _ => ⟨hup, hdown⟩) (by rw [hmac]) (fun f hf => hmac ▸ hf)
    (fun _ => by rw [Term.coming, Term.coming, hup, hmac]) (by rw [hhost]) fun _ _ _ hiff => ?_
  rw [hhost, ← hiff, State.comes_to_hold, State.comes_to_hold, State.arriving, State.arriving,
    frames_congr (by rw [hhost]) hlink hname, hhost, hmac, hdown]

/-- What holds of one terminal after it and held of all holds of all. -/
theorem on_all {f : Term → Term} {P : Term → Prop} (hf : P (f (s.term id))) (hold : ∀ id, P (s.term id)) (id' : Str) :
    P ((s.on id f).term id') := by
  by_cases hid : id' = id
  · subst hid
    exact (congrArg P (update_self ..)).mpr hf
  · exact (congrArg P (update_of_ne hid ..)).mpr (hold id')

/-- A step that concerns one terminal. -/
theorem Good.on (h : Good s) {f : Term → Term} (hhost : (f (s.term id)).host.Ok)
    (hmac : ∀ m, ((f (s.term id)).mac m).Ok) (hside : ∀ m, Side (s.on id f) id m)
    (haway : (f (s.term id)).host.shown.away = none)
    (his_mac : ∀ m, ((f (s.term id)).mac m).IsMac) : Good (s.on id f) := by
  refine ⟨on_all (P := (·.host.Ok)) hhost h.host, fun id' m => on_all (P := fun t => (t.mac m).Ok) (hmac m) (h.mac · m) id',
    fun id' m => ?_, on_all (P := (·.host.shown.away = none)) haway h.none_away,
    fun id' m => on_all (P := fun t => (t.mac m).IsMac) (his_mac m) (h.is_mac · m) id'⟩
  by_cases hid : id' = id
  · rw [hid]
    exact hside m
  · have hterm : (s.on id f).term id' = s.term id' := update_of_ne hid ..
    exact (h.side id' m).same (by rw [hterm]) (by rw [hterm]) (by rw [hterm]) (by rw [hterm]) rfl rfl (fun ha => ha) rfl

theorem Owner.is_local_iff : who.is_local = true ↔ who.key.1 = .window ∨ who.key.1 = .mobile := by
  rw [Owner.is_local, Bool.or_eq_true, decide_eq_true_iff, decide_eq_true_iff]
  rfl

theorem Owner.ne_peer (h : who.is_local = true) (m : Str) : (Kind.peer, m) ≠ who.key := fun he => by
  have hk := is_local_iff.mp h
  rw [← he] at hk
  rcases hk with hk | hk <;> exact nomatch hk

/-! ## What a surface does on a machine -/

/-- A surface has done something, and there is a task for it or nothing to tell. -/
structure Acts (mac mac' : Machine) (op : Op) (who : Owner) : Prop where
  shown : mac'.shown = (mac.shown.apply op who).1
  todo : mac'.todo = mac.todo ∧ mac'.shown.holder = mac.shown.holder ∨
    ∃ task, mac'.todo = mac.todo ++ [task] ∧ task.owner.map Owner.key = mac'.shown.holder ∧
      (task.changed = true ↔ mac.shown.holder ≠ mac'.shown.holder) ∧
      ∀ m conn, task.reply = some (m, conn) → who.key = (Kind.peer, m)

variable {mac mac' : Machine}

theorem acts_command (mac : Machine) (op : Op) (who : Owner) : Acts mac (mac.command op who) op who :=
  ⟨rfl, Or.inr ⟨_, rfl, Shown.apply_owner, Shown.apply_changed, fun _ _ hr => nomatch hr⟩⟩

theorem acts_drop_surface (mac : Machine) (who : Owner) : Acts mac (mac.drop_surface who) .unpresent who := by
  refine ⟨rfl, ?_⟩
  unfold Machine.drop_surface
  dsimp only
  split
  next => exact Or.inr ⟨_, rfl, Shown.unpresent_owner, Shown.unpresent_changed, fun _ _ hr => nomatch hr⟩
  next hchanged => exact Or.inl ⟨rfl, (not_not.mp fun hne => hchanged (Shown.unpresent_changed.mpr hne)).symm⟩

theorem acts_ctl (mac : Machine) (op : Op) (hpeer : who.kind = .peer) (conn : ℕ) :
    Acts mac (mac.ctl op who conn) op who := by
  refine ⟨rfl, Or.inr ⟨_, rfl, Shown.apply_owner, Shown.apply_changed, fun m conn' hr => ?_⟩⟩
  have hsome := (ite_none_right_eq_some.mp hr).2
  rw [← (Prod.mk.inj (some.inj hsome)).1, ← hpeer]
  rfl

theorem Acts.is_mac (h : Acts mac mac' op who) (hw : who.is_local = true) (hold : mac.IsMac) : mac'.IsMac := by
  refine ⟨fun k hk => ?_, fun a ha => ?_⟩
  · rw [h.shown] at hk
    rcases Shown.mem_apply_keys.mp hk with ⟨-, hin⟩ | ⟨-, rfl⟩
    · exact hold.windows k hin
    · exact Owner.is_local_iff.mp hw
  · rw [h.shown] at ha
    rcases Shown.apply_away (s := mac.shown)  with hn | hs
    · exact nomatch hn.symm.trans ha
    · exact hold.away a (hs.symm.trans ha)

theorem Acts.away (h : Acts mac mac' op who) (hold : mac.shown.away = none) : mac'.shown.away = none := by
  rw [h.shown]
  exact Shown.apply_away.elim (fun hn => hn) fun hs => hs.trans hold

/-- What another surface does at the host. -/
theorem Side.host_acts (h : Side s id m) (htodo : (s.term id).host.todo = [])
    (hother : (Kind.peer, m) ≠ who.key) (hacts : Acts (s.term id).host (s'.term id).host op who)
    (hmac : (s'.term id).mac m = (s.term id).mac m) (hup : (s'.term id).up m = (s.term id).up m)
    (hdown : (s'.term id).down m = (s.term id).down m) (hlink : s'.link m = s.link m)
    (hended : s'.ended m = s.ended m) (hattached : s'.attached m id = s.attached m id) : Side s' id m := by
  refine h.host htodo ?_ ?_ hmac hup hdown hlink hended hattached
  · rw [hacts.shown, Shown.mem_apply_keys]
    exact ⟨fun hk => (hk.resolve_right fun hw => hother hw.2).2, fun hk => Or.inl ⟨hother, hk⟩⟩
  · rcases hacts.todo with ⟨hsame, hholder⟩ | ⟨task, htask, howner, hchanged, hreply⟩
    · exact Or.inl ⟨hsame.trans htodo, hholder⟩
    · rw [htodo] at htask
      refine Or.inr ⟨task, htask, howner, hchanged, fun to_ conn hr he => ?_⟩
      exact hother (he ▸ (hreply to_ conn hr).symm)

/-! ## The steps -/

theorem Good.acts_at_host (h : Good s) (hlocal : who.is_local = true) (htodo : (s.term id).host.todo = []) :
    Good (s.on id (·.at_host (·.command op who))) := by
  have hself : (s.on id (·.at_host (·.command op who))).term id = (s.term id).at_host (·.command op who) :=
    update_self ..
  have hacts := acts_command (s.term id).host op who
  refine h.on ((h.host id).command htodo op who) (h.mac id) (fun m => ?_) (hacts.away (h.none_away id)) (h.is_mac id)
  have hacts' : Acts (s.term id).host ((s.on id (·.at_host (·.command op who))).term id).host op who := by
    rw [hself]
    exact hacts
  exact (h.side id m).host_acts htodo (Owner.ne_peer hlocal m) hacts' (by rw [hself]; rfl)
    (by rw [hself]; rfl) (by rw [hself]; rfl) rfl rfl rfl

theorem Good.host_leaves (h : Good s) (hlocal : who.is_local = true) (htodo : ∀ id, (s.term id).host.todo = []) :
    Good { s with term := fun id => (s.term id).at_host (·.drop_surface who) } := by
  have hacts := fun id => acts_drop_surface (s.term id).host who
  refine ⟨fun id => (h.host id).drop_surface (htodo id) who, h.mac, fun id m => ?_,
    fun id => (hacts id).away (h.none_away id), h.is_mac⟩
  exact (h.side id m).host_acts (htodo id) (Owner.ne_peer hlocal m) (hacts id) rfl rfl rfl rfl rfl rfl

/-- What is done to a Mac's part of a terminal leaves the other Macs as they are. -/
theorem Side.at_other (h : Side s id m) {f : Term → Term} (hhost : (f (s.term id)).host = (s.term id).host)
    (hmac : (f (s.term id)).mac m = (s.term id).mac m) (hup : (f (s.term id)).up m = (s.term id).up m)
    (hdown : (f (s.term id)).down m = (s.term id).down m) : Side (s.on id f) id m := by
  have hself : (s.on id f).term id = f (s.term id) := update_self ..
  exact h.same (hself ▸ hhost) (hself ▸ hmac) (hself ▸ hup) (hself ▸ hdown) rfl rfl (fun ha => ha) rfl

variable {f : Machine → Machine}

theorem at_mac_self {t : Term} : (t.at_mac m f).mac m = f (t.mac m) := update_self ..

theorem at_mac_ne {t : Term} {m' : Str} (hne : m ≠ m') : (t.at_mac m' f).mac m = t.mac m :=
  update_of_ne hne ..

/-- What holds of one Mac and is kept of the others holds of all. -/
theorem at_mac_all {P : Machine → Prop} {t : Term} {m' : Str} (hf : P (f (t.mac m')))
    (hold : ∀ m, P (t.mac m)) (m : Str) : P ((t.at_mac m' f).mac m) := by
  by_cases hm : m = m'
  · rw [hm, at_mac_self]
    exact hf
  · rw [at_mac_ne hm]
    exact hold m

variable (h : Good s)
include h

/-- A Mac's part of a terminal is another, and as good. -/
theorem Good.at_mac {f : Machine → Machine} (hok : (f ((s.term id).mac m)).Ok)
    (his_mac : (f ((s.term id).mac m)).IsMac) :
    (∀ m', (((s.term id).at_mac m f).mac m').Ok) ∧ ∀ m', (((s.term id).at_mac m f).mac m').IsMac :=
  ⟨at_mac_all hok (h.mac id), at_mac_all his_mac (h.is_mac id)⟩

theorem Good.acts_at_mac (hlocal : who.is_local = true) (htodo : ((s.term id).mac m).todo = [])
    (hattached : op ≠ .unpresent → s.attached m id = true) : Good (s.on id (·.at_mac m (·.command op who))) := by
  have hself : (s.on id (·.at_mac m (·.command op who))).term id = (s.term id).at_mac m (·.command op who) :=
    update_self ..
  have hacts := acts_command ((s.term id).mac m) op who
  obtain ⟨hok, his_mac⟩ := h.at_mac (f := (·.command op who)) ((h.mac id m).command htodo op who)
    (hacts.is_mac hlocal (h.is_mac id m))
  refine h.on (h.host id) hok (fun m' => ?_) (h.none_away id) his_mac
  by_cases hm : m' = m
  · subst hm
    have hmac : ((s.on id (·.at_mac m' (·.command op who))).term id).mac m' = ((s.term id).mac m').command op who := by
      rw [hself]
      exact update_self ..
    refine (h.side id m').command ⟨?_, ?_, ?_, rfl, rfl, rfl, rfl⟩ htodo hattached hmac <;> rw [hself] <;> rfl
  · exact (h.side id m').at_other rfl (update_of_ne hm ..) rfl rfl

theorem Good.mac_leaves (hlocal : who.is_local = true) (htodo : ∀ id, ((s.term id).mac m).todo = []) :
    Good { s with term := fun id => (s.term id).at_mac m (·.drop_surface who) } := by
  have hgood := fun id => h.at_mac (f := (·.drop_surface who)) ((h.mac id m).drop_surface (htodo id) who)
    ((acts_drop_surface _ who).is_mac hlocal (h.is_mac id m))
  refine ⟨h.host, fun id => (hgood id).1, fun id m' => ?_, h.none_away, fun id => (hgood id).2⟩
  by_cases hm : m' = m
  · subst hm
    exact (h.side id m').drop_surface ⟨rfl, rfl, rfl, rfl, rfl, rfl, rfl⟩ (htodo id) (update_self ..)
  · exact (h.side id m').same rfl (update_of_ne hm ..) rfl rfl rfl rfl (fun ha => ha) rfl

omit h in
theorem on_self {f : Term → Term} : (s.on id f).term id = f (s.term id) := update_self ..

/-- A task of the host is taken up. -/
theorem Good.host_tells {k : ℕ} {task : Task} (hk : (s.term id).host.todo[k]? = some task) :
    Good (s.on id fun t => { t.at_host (·.tells k task) with down := fun m => t.down m ++ s.frames t m task }) := by
  obtain ⟨rfl, htodo⟩ := (h.host id).todo_eq hk
  refine h.on ((h.host id).tells hk) (h.mac id) (fun m => ?_) (h.none_away id) (h.is_mac id)
  exact (h.side id m).host_tells htodo (by rw [on_self]; rfl) (by rw [on_self]) (by rw [on_self]; rfl)
    (by rw [on_self]; rfl) rfl rfl rfl

theorem Good.mac_tells {k : ℕ} {task : Task} (hk : ((s.term id).mac m).todo[k]? = some task) :
    Good (s.on id fun t => (t.at_mac m (·.tells k task)).sends_up m
      (if s.link m = none then [] else (task.forward.map Frame.ctl).toList)) := by
  obtain ⟨rfl, htodo⟩ := (h.mac id m).todo_eq hk
  obtain ⟨hok, his_mac⟩ := h.at_mac (f := (·.tells 0 task)) ((h.mac id m).tells hk)
    ⟨(h.is_mac id m).windows, (h.is_mac id m).away⟩
  refine h.on (h.host id) hok (fun m' => ?_) (h.none_away id) his_mac
  -- the frame is queued on this Mac's connection, and on no other
  by_cases hm : m' = m
  · subst hm
    refine (h.side id m').mac_tells htodo (by rw [on_self]; exact update_self ..) ?_ (by rw [on_self]; rfl)
      (by rw [on_self]; rfl) rfl rfl rfl rfl
    rw [on_self]
    exact update_self ..
  · exact (h.side id m').at_other rfl (update_of_ne hm ..) (update_of_ne hm ..) rfl

/-- A Mac takes in an `owner` frame. -/
theorem Good.hold {elsewhere : Option Str} {rest : List (Option Str)}
    (hdown : (s.term id).down m = elsewhere :: rest) (htodo : ((s.term id).mac m).todo = []) :
    Good (s.on id fun t => { t.at_mac m (·.note_away elsewhere) with down := update t.down m rest }) := by
  have hkeys : (((s.term id).mac m).note_away elsewhere).shown.keys = ((s.term id).mac m).shown.keys :=
    Shown.hold_away_keys
  -- what holds the terminal elsewhere is never a window
  have haway : ∀ a, (((s.term id).mac m).note_away elsewhere).shown.away = some a → a.kind = .away := fun a ha => by
    change (((s.term id).mac m).shown.hold_away _).1.away = some a at ha
    rw [Shown.hold_away] at ha
    split at ha
    · exact (h.is_mac id m).away a ha
    · obtain ⟨name, -, rfl⟩ := map_eq_some_iff.mp ha
      rfl
  obtain ⟨hok, his_mac⟩ := h.at_mac (f := (·.note_away elsewhere)) ((h.mac id m).note_away htodo elsewhere)
    ⟨hkeys ▸ (h.is_mac id m).windows, haway⟩
  refine h.on (h.host id) hok (fun m' => ?_) (h.none_away id) his_mac
  by_cases hm : m' = m
  · subst hm
    refine (h.side id m').hold hdown htodo (by rw [on_self]; exact update_self ..) ?_ (by rw [on_self]; rfl)
      (by rw [on_self]; rfl) rfl rfl rfl rfl
    rw [on_self]
    exact update_self ..
  · exact (h.side id m').at_other rfl (update_of_ne hm ..) rfl (update_of_ne hm ..)

variable {attached : Str → Str → Bool}

/-- A Mac attaches more terminals, or fewer than it shows none of. -/
theorem Good.attaches
    (hkeeps : ∀ id m, ((s.term id).mac m).shown.keys ≠ [] → s.attached m id = true → attached m id = true) :
    Good { s with attached } := by
  refine ⟨h.host, h.mac, fun id m => ?_, h.none_away, h.is_mac⟩
  have hside := h.side id m
  exact ⟨hside.idle, hside.forwards, fun hP => hkeeps id m hP (hside.attached hP), hside.last, hside.here,
    hside.left, hside.away, hside.linked⟩

omit h in
theorem attached_at {b : Bool} {id' m' : Str} (hne : m' = m → id' = id → b = true)
    (ha : attached m' id' = true) : update attached m (update (attached m) id b) m' id' = true := by
  by_cases hm : m' = m
  · subst hm
    rw [update_self]
    by_cases hid : id' = id
    · subst hid
      rw [update_self]
      exact hne rfl rfl
    · rw [update_of_ne hid]
      exact ha
  · rw [update_of_ne hm]
    exact ha

theorem Good.detach (hempty : ((s.term id).mac m).shown.keys = []) :
    Good (State.on { s with attached := update s.attached m (update (s.attached m) id false) } id
      (·.sends_up m (if s.link m = none then [] else [.unsub]))) := by
  have hbase : Good { s with attached := update s.attached m (update (s.attached m) id false) } := by
    refine h.attaches fun id' m' hP ha => attached_at (fun hm hid => ?_) ha
    subst hm hid
    exact absurd hempty hP
  refine hbase.on (hbase.host id) (hbase.mac id) (fun m' => ?_) (hbase.none_away id) (hbase.is_mac id)
  by_cases hm : m' = m
  · subst hm
    refine (hbase.side id m').detach hempty (by rw [on_self]; rfl) ?_ (by rw [on_self]; rfl) (by rw [on_self]; rfl)
      rfl rfl
    rw [on_self]
    exact update_self ..
  · exact (hbase.side id m').at_other rfl rfl (update_of_ne hm ..) rfl

/-! ### A frame of a Mac -/

omit h in
theorem drop_peer {mac : Machine} : (Kind.peer, m) ∉ (mac.drop_surface (s.owner m)).shown.keys := fun hin => by
  have hin' : (Kind.peer, m) ∈ (mac.shown.unpresent (s.owner m)).1.keys := hin
  rw [Shown.unpresent_keys] at hin'
  exact absurd rfl (of_decide_eq_true (mem_filter.mp hin').2)

omit h in
theorem owner_ne {m' : Str} (hne : m' ≠ m) : (Kind.peer, m') ≠ (s.owner m).key := fun he => hne (Prod.mk.inj he).2

omit h in
/-- A frame about a terminal that is alive where it matters. -/
theorem handle_eq {t : Term} {frame : Frame} {rest : List Frame} (conn : ℕ)
    (halive : ∀ op, frame = .ctl op → op ≠ .unpresent → t.alive = true) :
    t.handle m who conn frame rest = { t with
      up := update t.up m rest
      host := if frame = .unsub then t.host.drop_surface who else t.host.ctl frame.asks who conn } := by
  match frame with
  | .unsub => rfl
  | .ctl .unpresent => rfl
  | .ctl .present =>
    unfold Term.handle
    dsimp only
    rw [if_pos (halive .present rfl (nomatch ·))]
    rfl
  | .ctl .claim =>
    unfold Term.handle
    dsimp only
    rw [if_pos (halive .claim rfl (nomatch ·))]
    rfl

omit h in
/-- The Mac that asked is told, by the broadcast or in answer. -/
theorem ctl_frames {t : Term} {conn : ℕ} (hl : s.link m = some conn) (hop : op ≠ .unpresent)
    (hin : (Kind.peer, m) ∈ t.host.shown.keys) {task : Task}
    (hreply : task.reply = if !task.changed && op ≠ .unpresent then some (m, conn) else none) :
    s.frames t m task = [s.elsewhere m task.owner] := by
  unfold State.frames
  rw [hreply]
  cases hc : task.changed with
  | true =>
    have hlink : s.link m ≠ none := by rw [hl]; exact some_ne_none _
    have hpush : (true = true ∧ (Kind.peer, m) ∈ t.host.shown.keys ∧ s.link m ≠ none) := ⟨rfl, hin, hlink⟩
    rw [if_pos hpush]
    rfl
  | false =>
    have hand : (!false && decide (op ≠ .unpresent)) = true := by simpa using hop
    rw [if_neg fun hn => (nomatch hn.1), if_pos hand]
    exact if_pos ⟨rfl, hl⟩

/-- The host handles a frame of a Mac. -/
theorem Good.handle {conn : ℕ} {frame : Frame} {rest : List Frame} (hl : s.link m = some conn)
    (hup : (s.term id).up m = frame :: rest) (horderly : s.Orderly (.handle m id)) :
    Good (s.on id (·.handle m (s.owner m) conn frame rest)) := by
  obtain ⟨htodo, halive⟩ := horderly
  have heq : (s.term id).handle m (s.owner m) conn frame rest = { s.term id with
      up := update (s.term id).up m rest
      host := if frame = .unsub then (s.term id).host.drop_surface (s.owner m)
        else (s.term id).host.ctl frame.asks (s.owner m) conn } :=
    handle_eq conn fun op hf hop => halive op (by rw [hup, hf]; rfl) hop
  generalize hhost : (if frame = .unsub then (s.term id).host.drop_surface (s.owner m)
    else (s.term id).host.ctl frame.asks (s.owner m) conn) = host at heq
  -- `unsub` drops the surface of the Mac, a `ctl` frame does what it asks
  have hacts : Acts (s.term id).host host frame.asks (s.owner m) := by
    rw [← hhost]
    split
    next hf =>
      rw [hf]
      exact acts_drop_surface _ _
    next => exact acts_ctl _ _ rfl conn
  have hok : host.Ok := by
    rw [← hhost]
    split
    next => exact (h.host id).drop_surface htodo _
    next => exact (h.host id).ctl htodo _ rfl conn
  have hself : (s.on id (·.handle m (s.owner m) conn frame rest)).term id = _ := on_self.trans heq
  refine h.on (by rw [heq]; exact hok) (by rw [heq]; exact h.mac id) (fun m' => ?_)
    (by rw [heq]; exact hacts.away (h.none_away id)) (by rw [heq]; exact h.is_mac id)
  by_cases hm : m' = m
  case neg =>
    refine (h.side id m').host_acts htodo (owner_ne hm) (by rw [hself]; exact hacts) (by rw [hself]) ?_ (by rw [hself])
      rfl rfl rfl
    rw [hself]
    exact update_of_ne hm ..
  subst hm
  have hlink : s.link m' ≠ none := by rw [hl]; exact some_ne_none _
  have hup' : ((s.on id (·.handle m' (s.owner m') conn frame rest)).term id).up m' = rest := by
    rw [hself]
    exact update_self ..
  -- more is to come from the Mac, or this frame is its last word
  by_cases hmore : rest ++ ((s.term id).mac m').sending ≠ []
  · exact (h.side id m').handle_more hup hmore hup' (by rw [hself]) rfl hlink rfl
  obtain ⟨hrest, hnone⟩ := append_eq_nil_iff.mp (not_not.mp hmore)
  subst hrest
  refine (h.side id m').handle_last hup hnone hup' (by rw [hself]) rfl hlink rfl (fun hleaves => ?_) fun hcomes => ?_
  · rw [hself]
    change (Kind.peer, m') ∉ host.shown.keys
    rw [hacts.shown, Shown.mem_apply_keys, Frame.leaves_iff.mp hleaves]
    rintro (⟨hne, -⟩ | ⟨hne, -⟩)
    · exact hne rfl
    · exact hne rfl
  · have hop : frame.asks ≠ .unpresent := fun ho => by
      rw [Frame.leaves_iff.mpr ho] at hcomes
      exact nomatch hcomes
    have hin : (Kind.peer, m') ∈ host.shown.keys := by
      rw [hacts.shown, Shown.mem_apply_keys]
      exact Or.inr ⟨hop, rfl⟩
    have hctl : (s.term id).host.ctl frame.asks (s.owner m') conn = host := by
      rw [← hhost, if_neg fun hf : frame = .unsub => hop (by rw [hf]; rfl)]
    have htask : host.todo = [{
        owner := ((s.term id).host.shown.apply frame.asks (s.owner m')).2.1
        changed := ((s.term id).host.shown.apply frame.asks (s.owner m')).2.2
        reply := if !((s.term id).host.shown.apply frame.asks (s.owner m')).2.2 && frame.asks ≠ .unpresent then
          some (m', conn) else none }] := by
      rw [← hctl]
      unfold Machine.ctl
      dsimp only
      rw [htodo]
      rfl
    rw [hself]
    refine ⟨hin, ((s.term id).host.shown.apply frame.asks (s.owner m')).2.1, ?_, ?_⟩
    · rw [State.arriving, hself]
      dsimp only
      rw [htask, flatMap_singleton]
      exact congrArg ((s.term id).down m' ++ ·) (ctl_frames hl hop hin rfl)
    · change _ = host.shown.holder
      rw [hacts.shown, Shown.apply_owner]

/-! ### The connection -/

theorem Good.connect (hl : s.link m = none) : Good { s with
    link := update s.link m (some s.next_conn)
    next_conn := s.next_conn + 1
    term := fun id => (s.term id).sends_up m
      (if s.attached m id ∧ ((s.term id).mac m).shown.owner ≠ none then [.ctl .present] else []) } := by
  refine ⟨h.host, h.mac, fun id m' => ?_, h.none_away, h.is_mac⟩
  by_cases hm : m' = m
  · subst hm
    refine (h.side id m').connect hl ?_ (update_self ..) rfl rfl rfl rfl
    change update s.link m' (some s.next_conn) m' ≠ none
    rw [update_self]
    exact some_ne_none _
  · exact (h.side id m').same rfl rfl (update_of_ne hm ..) rfl (update_of_ne hm ..) rfl
      (fun ha => ha) rfl

theorem Good.cut : Good { s with
    link := update s.link m none
    ended := update s.ended m (s.ended m + 1)
    term := fun id => { s.term id with
      up := update (s.term id).up m []
      down := update (s.term id).down m [] } } := by
  refine ⟨h.host, h.mac, fun id m' => ?_, h.none_away, h.is_mac⟩
  by_cases hm : m' = m
  · subst hm
    exact (h.side id m').cut (update_self ..) (update_self ..) (update_self ..) rfl
      (update_self ..) rfl
  · exact (h.side id m').same rfl rfl (update_of_ne hm ..) (update_of_ne hm ..)
      (update_of_ne hm ..) (update_of_ne hm ..) (fun ha => ha) rfl

theorem Good.notice (horderly : s.Orderly (.notice m)) : Good { s with
    ended := update s.ended m (s.ended m - 1)
    term := fun id => (s.term id).at_host (·.drop_surface (s.owner m)) } := by
  have hacts := fun id => acts_drop_surface (s.term id).host (s.owner m)
  refine ⟨fun id => (h.host id).drop_surface (horderly id).1 _, h.mac, fun id m' => ?_,
    fun id => (hacts id).away (h.none_away id), h.is_mac⟩
  -- the Mac whose connection went is let go of, and the others stay
  by_cases hm : m' = m
  · subst hm
    exact (h.side id m').notice (horderly id).2 drop_peer rfl rfl rfl rfl rfl
  · exact (h.side id m').host_acts (horderly id).1 (owner_ne hm) (hacts id) rfl rfl rfl rfl
      (update_of_ne hm ..) rfl

theorem Good.alive (b : Bool) : Good (s.on id fun t => { t with alive := b }) :=
  h.on (h.host id) (h.mac id) (fun m => (h.side id m).at_other rfl rfl rfl rfl) (h.none_away id) (h.is_mac id)

theorem Good.step {e : Event} (horderly : s.Orderly e) (hstep : s.step e = some s') : Good s' := by
  -- each step has its own lemma; only those that `Orderly` speaks of need the condition
  cases e with
  | host id op who =>
    rw [State.step] at hstep
    split at hstep
    next hlocal => exact some.inj hstep ▸ h.acts_at_host hlocal horderly
    next => exact nomatch hstep
  | mac m id op who =>
    rw [State.step] at hstep
    split at hstep
    next hlocal => exact some.inj hstep ▸ h.acts_at_mac hlocal horderly.1 horderly.2
    next => exact nomatch hstep
  | host_leaves who =>
    rw [State.step] at hstep
    split at hstep
    next hlocal => exact some.inj hstep ▸ h.host_leaves hlocal horderly
    next => exact nomatch hstep
  | mac_leaves m who =>
    rw [State.step] at hstep
    split at hstep
    next hlocal => exact some.inj hstep ▸ h.mac_leaves hlocal horderly
    next => exact nomatch hstep
  | host_tells id k =>
    rw [State.step] at hstep
    split at hstep
    next hk => exact some.inj hstep ▸ h.host_tells hk
    next => exact nomatch hstep
  | mac_tells m id k =>
    rw [State.step] at hstep
    split at hstep
    next hk => exact some.inj hstep ▸ h.mac_tells hk
    next => exact nomatch hstep
  | handle m id =>
    rw [State.step] at hstep
    split at hstep
    next hl hup => exact some.inj hstep ▸ h.handle hl hup horderly
    next => exact nomatch hstep
  | hold m id =>
    rw [State.step] at hstep
    split at hstep
    next hdown => exact some.inj hstep ▸ h.hold hdown horderly
    next => exact nomatch hstep
  | attach m id =>
    have hs : _ = s' := some.inj hstep
    rw [← hs]
    exact h.attaches fun id' m' _ ha => attached_at (fun _ _ => rfl) ha
  | detach m id => exact some.inj hstep ▸ h.detach horderly
  | connect m =>
    rw [State.step] at hstep
    split at hstep
    next => exact nomatch hstep
    next hl => exact some.inj hstep ▸ h.connect hl
  | cut m =>
    rw [State.step] at hstep
    split at hstep
    next => exact nomatch hstep
    next => exact some.inj hstep ▸ h.cut
  | notice m =>
    rw [State.step] at hstep
    split at hstep
    next => exact nomatch hstep
    next => exact some.inj hstep ▸ h.notice horderly
  | starts id => exact some.inj hstep ▸ h.alive true
  | exits id => exact some.inj hstep ▸ h.alive false

omit h

theorem machine_ok_init : Machine.Ok {} :=
  ⟨Nat.zero_le 1, fun _ ht => absurd ht not_mem_nil, fun _ hk => absurd hk not_mem_nil⟩

theorem good_init (host_name : Str) (device_name : Str → Str) : Good { host_name, device_name } := by
  refine ⟨fun _ => machine_ok_init, fun _ _ => machine_ok_init, fun _ _ => ?_, fun _ => rfl, fun _ _ => ?_⟩
  · exact ⟨fun _ => ⟨rfl, rfl⟩, fun _ hf => absurd hf not_mem_nil, fun hP => absurd rfl hP,
      fun hl => absurd rfl hl, fun hl => absurd rfl hl, fun hl => absurd rfl hl, fun hl => absurd rfl hl,
      fun hm => absurd hm not_mem_nil⟩
  · exact ⟨fun _ hk => absurd hk not_mem_nil, fun _ ha => nomatch ha⟩

theorem good_of_reachable (h : Reachable (system.when State.Orderly) s) : Good s := by
  refine h.invariant (fun s hinit => ?_) fun s e s' hgood hstep => ?_
  case refine_2 =>
    have hstep' : s.Orderly e ∧ s.step e = some s' := hstep
    exact hgood.step hstep'.1 hstep'.2
  obtain ⟨host_name, device_name, rfl⟩ := hinit
  exact good_init host_name device_name

end

end Lpm.Control
