/-
Control of a terminal is one surface's, on every machine that shows it.
-/
import Lpm.Control.Kept

set_option autoImplicit false

open RustText Transition

namespace Lpm.Control

open Function (update update_of_ne)
open List Option

/-- The host, or a Mac. -/
abbrev Place : Type := Option Str

section
variable (s : State) (id : Str)

def State.machine : Place → Machine
  | none => (s.term id).host
  | some m => (s.term id).mac m

/-- A surface shows the terminal, on the host or on a Mac that is connected. -/
def State.shows : Place → Key → Prop
  | none, k => k ∈ (s.term id).host.shown.keys ∧ k.1 ≠ .peer
  | some m, k => s.link m ≠ none ∧ k ∈ ((s.term id).mac m).shown.keys

/-- It is told that it is the owner. -/
def State.is_told (place : Place) (k : Key) : Prop :=
  ((s.machine id place).told k).map Owner.key = some k

/-- Nothing is on its way: no frame and no task. -/
structure State.Quiet (id : Str) : Prop where
  host : (s.term id).host.todo = []
  mac : ∀ m, ((s.term id).mac m).todo = []
  up : ∀ m, (s.term id).up m = []
  down : ∀ m, (s.term id).down m = []

/-- The host has noticed the end of every connection of the Mac it has as the owner, or that Mac is
connected again and shows the terminal. -/
def State.Noticed (id : Str) : Prop :=
  ∀ m, (s.term id).host.shown.holder = some (Kind.peer, m) →
    s.ended m = 0 ∨ s.link m ≠ none ∧ ((s.term id).mac m).shown.keys ≠ []

/-- A step by which the owner of a terminal gives way on a machine: another surface claims the
terminal there, the owner leaves it, or the host says who holds it. -/
def State.gives_way (k : Key) : Place → Event → Prop
  | none, .host id' op who => id' = id ∧ (op = .claim ∨ op = .unpresent ∧ who.key = k)
  | none, .host_leaves who => who.key = k
  | none, .handle m id' => id' = id ∧ ∃ frame, ((s.term id).up m).head? = some frame ∧
      (frame.asks = .claim ∨ frame.asks = .unpresent ∧ k = (Kind.peer, m))
  | none, .notice m => k = (Kind.peer, m)
  | some m, .mac m' id' op who => m' = m ∧ id' = id ∧ (op = .claim ∨ op = .unpresent ∧ who.key = k)
  | some m, .mac_leaves m' who => m' = m ∧ who.key = k
  | some m, .hold m' id' => m' = m ∧ id' = id
  | _, _ => False

/-- Control of a terminal is one surface's. -/
structure OneOwner : Prop where
  /-- The owner presents the terminal there, or holds it elsewhere. -/
  owner : ∀ id place o, (s.machine id place).shown.owner = some o →
    o ∈ (s.machine id place).shown.presenters ∨ (s.machine id place).shown.away = some o
  /-- It changes for a reason. -/
  changes : ∀ e s', s.step e = some s' → ∀ id place k k', (s.machine id place).shown.holder = some k →
    (s'.machine id place).shown.holder = some k' → k ≠ k' → s.gives_way id k place e
  /-- A flag says exactly whether it changed. -/
  flag : ∀ id place op who, ((s.machine id place).shown.apply op who).2.2 = true ↔
    (s.machine id place).shown.holder ≠ ((s.machine id place).shown.apply op who).1.holder
  flag_away : ∀ id place away, ((s.machine id place).shown.hold_away away).2.2 = true ↔
    (s.machine id place).shown.holder ≠ ((s.machine id place).shown.hold_away away).1.holder
  /-- One surface is told that it is the owner, unless the host has yet to notice that the owner
  has gone. -/
  one : ∀ id, s.Quiet id → (∃ place k, s.shows id place k) →
    (s.Noticed id ↔ ∃! p : Place × Key, s.shows id p.1 p.2 ∧ s.is_told id p.1 p.2)

end

section
variable {s s' : State} {id m : Str} {k k' : Key} {place : Place}

theorem Shown.owner_mem {shown : Shown} {o : Owner} (h : shown.owner = some o) :
    o ∈ shown.presenters ∨ shown.away = some o := by
  unfold Shown.owner at h
  split at h
  next => exact nomatch h
  next first rest hpresenters =>
    cases ha : shown.away with
    | none =>
      rw [ha] at h
      rw [hpresenters, ← some.inj h]
      exact Or.inl mem_cons_self
    | some a =>
      rw [ha] at h
      exact Or.inr h

/-! ### Who gives way -/

variable {f : Term → Term}

theorem on_machine_ne {id' : Str} (hne : id ≠ id') : (s.on id' f).machine id place = s.machine id place := by
  have hterm : (s.on id' f).term id = s.term id := update_of_ne hne ..
  cases place with
  | none => exact congrArg Term.host hterm
  | some m => exact congrArg (Term.mac · m) hterm

theorem stays {x : Option Key} {P : Prop} (hne : k ≠ k') (h : x = some k) (h' : x = some k') : P :=
  absurd (some.inj (h.symm.trans h')) hne

/-- What happens to one terminal makes nobody give way but there. -/
theorem gives_way_on {id' : Str} {e : Event} (hk : (s.machine id place).shown.holder = some k)
    (hk' : ((s.on id' f).machine id place).shown.holder = some k') (hne : k ≠ k')
    (hhost : id' = id → (s.term id).host.shown.holder = some k →
      (f (s.term id)).host.shown.holder = some k' → s.gives_way id k none e)
    (hmac : ∀ m, id' = id → ((s.term id).mac m).shown.holder = some k →
      ((f (s.term id)).mac m).shown.holder = some k' → s.gives_way id k (some m) e) : s.gives_way id k place e := by
  by_cases hid : id = id'
  · subst hid
    cases place with
    | none =>
      rw [State.machine, on_self] at hk'
      exact hhost rfl hk hk'
    | some m =>
      rw [State.machine, on_self] at hk'
      exact hmac m rfl hk hk'
  · rw [on_machine_ne hid] at hk'
    exact stays hne hk hk'

/-- And on a Mac only what is done there. -/
theorem at_mac_holder {t : Term} {g : Machine → Machine} {m' : Str} {P : Prop} (hne : k ≠ k')
    (hk : (t.mac m).shown.holder = some k) (hk' : ((t.at_mac m' g).mac m).shown.holder = some k')
    (hhere : m' = m → (g (t.mac m)).shown.holder = some k' → P) : P := by
  by_cases hm : m = m'
  · subst hm
    rw [at_mac_self] at hk'
    exact hhere rfl hk'
  · rw [at_mac_ne hm] at hk'
    exact stays hne hk hk'

theorem step_gives_way {e : Event} (hstep : s.step e = some s') (hk : (s.machine id place).shown.holder = some k)
    (hk' : (s'.machine id place).shown.holder = some k') (hne : k ≠ k') : s.gives_way id k place e := by
  -- what a step does on one machine, its lemma on `Shown` says
  cases e with
  | host id' op who =>
    rw [State.step, ite_none_right_eq_some] at hstep
    obtain rfl := some.inj hstep.2
    exact gives_way_on hk hk' hne (fun hid h h' => ⟨hid, Shown.apply_gives_way h h' hne⟩) fun _ _ => stays hne
  | mac m' id' op who =>
    rw [State.step, ite_none_right_eq_some] at hstep
    obtain rfl := some.inj hstep.2
    refine gives_way_on hk hk' hne (fun _ => stays hne) fun m hid h h' => ?_
    exact at_mac_holder hne h h' fun hm hthere => ⟨hm, hid, Shown.apply_gives_way h hthere hne⟩
  | host_leaves who =>
    rw [State.step, ite_none_right_eq_some] at hstep
    obtain rfl := some.inj hstep.2
    cases place with
    | none =>
      have hleft : ((s.term id).host.shown.apply .unpresent who).1.holder = some k' := hk'
      exact ((Shown.apply_gives_way hk hleft hne).resolve_left (by simp)).2
    | some m => exact stays hne hk hk'
  | mac_leaves m' who =>
    rw [State.step, ite_none_right_eq_some] at hstep
    obtain rfl := some.inj hstep.2
    cases place with
    | none => exact stays hne hk hk'
    | some m =>
      refine @at_mac_holder _ _ _ (s.term id) (·.drop_surface who) m' _ hne hk hk' fun hm hthere => ?_
      have hleft : (((s.term id).mac m).shown.apply .unpresent who).1.holder = some k' := hthere
      exact ⟨hm, ((Shown.apply_gives_way hk hleft hne).resolve_left (by simp)).2⟩
  | host_tells id' n =>
    rw [State.step] at hstep
    split at hstep
    case h_2 => cases hstep
    cases hstep
    exact gives_way_on hk hk' hne (fun _ => stays hne) fun _ _ => stays hne
  | mac_tells m' id' n =>
    rw [State.step] at hstep
    split at hstep
    case h_2 => cases hstep
    cases hstep
    refine gives_way_on hk hk' hne (fun _ => stays hne) fun m _ h h' => ?_
    exact @at_mac_holder _ _ _ (s.term id) (·.tells n _) m' _ hne h h' fun _ => stays hne h
  | handle m' id' =>
    rw [State.step] at hstep
    split at hstep
    case h_2 => cases hstep
    next conn frame rest hl hup =>
      cases hstep
      refine gives_way_on hk hk' hne (fun hid h hthere => ?_) fun m hid h hthere => ?_
      · subst hid
        refine ⟨rfl, frame, by rw [hup]; rfl, ?_⟩
        have hasks : ((s.term id').host.shown.apply frame.asks (s.owner m')).1.holder = some k' := by
          rcases frame with (_ | _ | _) | _
          case ctl.unpresent | unsub => exact hthere
          all_goals
            unfold Term.handle at hthere
            dsimp only at hthere
            split at hthere
            · exact hthere
            · exact stays hne h hthere
        refine (Shown.apply_gives_way h hasks hne).imp_right fun hleaves => ⟨hleaves.1, hleaves.2.symm⟩
      · refine stays hne h ?_
        rcases frame with (_ | _ | _) | _
        case ctl.unpresent | unsub => exact hthere
        all_goals
          unfold Term.handle at hthere
          dsimp only at hthere
          split at hthere <;> exact hthere
  | hold m' id' =>
    rw [State.step] at hstep
    split at hstep
    case h_2 => cases hstep
    cases hstep
    refine gives_way_on hk hk' hne (fun _ => stays hne) fun m hid h h' => ?_
    exact @at_mac_holder _ _ _ (s.term id) (·.note_away _) m' _ hne h h' fun hm _ => ⟨hm, hid⟩
  | notice m' =>
    rw [State.step] at hstep
    split at hstep
    case isTrue => cases hstep
    cases hstep
    cases place with
    | none =>
      have hleft : ((s.term id).host.shown.apply .unpresent (s.owner m')).1.holder = some k' := hk'
      exact ((Shown.apply_gives_way hk hleft hne).resolve_left (by simp)).2.symm
    | some m => exact stays hne hk hk'
  | detach m' id' =>
    cases hstep
    -- what is attached is no matter of who shows the terminal
    have hk'' : ((s.on id' (·.sends_up m' (if s.link m' = none then [] else [.unsub]))).machine id place).shown.holder =
        some k' := by
      cases place <;> exact hk'
    exact gives_way_on hk hk'' hne (fun _ => stays hne) fun _ _ => stays hne
  | starts id' | exits id' =>
    cases hstep
    exact gives_way_on hk hk' hne (fun _ => stays hne) fun _ _ => stays hne
  | attach m' id' =>
    cases hstep
    cases place <;> exact stays hne hk hk'
  | connect m' | cut m' =>
    rw [State.step] at hstep
    split at hstep
    · cases hstep
    · cases hstep
      cases place <;> exact stays hne hk hk'

/-! ### Who is told -/

theorem Machine.Ok.is_told (h : Machine.Ok (s.machine id place)) (htodo : (s.machine id place).todo = [])
    (hk : k ∈ (s.machine id place).shown.keys) (hlocal : k.1 ≠ .peer) :
    s.is_told id place k ↔ (s.machine id place).shown.holder = some k := by
  have htold := h.told k hk hlocal
  rw [Machine.settled, htodo] at htold
  rw [State.is_told, ← htold]
  rfl

theorem Machine.IsMac.ne_peer {mac : Machine} (h : mac.IsMac) (hk : k ∈ mac.shown.keys) : k.1 ≠ .peer := fun he => by
  rcases h.windows k hk with hw | hw <;> exact nomatch he.symm.trans hw

/-- A window of a Mac is the owner there only if the terminal is not held elsewhere. -/
theorem Machine.IsMac.holder {mac : Machine} (h : mac.IsMac) (hk : k ∈ mac.shown.keys) (hh : mac.shown.holder = some k) :
    mac.shown.away.isNone = true := by
  cases ha : mac.shown.away with
  | none => rfl
  | some a =>
    obtain ⟨first, rest, hkeys⟩ := exists_cons_of_ne_nil (ne_nil_of_mem hk)
    rw [Shown.holder_eq, hkeys, ha] at hh
    have hkind : a.kind = k.1 := congrArg Prod.fst (some.inj hh)
    rw [h.away a ha] at hkind
    rcases h.windows k hk with hw | hw <;> exact nomatch hkind.trans hw

theorem State.Quiet.coming (hquiet : s.Quiet id) : (s.term id).coming m = [] := by
  rw [Term.coming, hquiet.up, Machine.sending, hquiet.mac]
  rfl

section
variable (hgood : Good s) (hquiet : s.Quiet id)
include hgood hquiet

/-- A connected Mac holds the terminal not to be elsewhere when it is the owner at the host. -/
theorem quiet_away (hl : s.link m ≠ none) (hP : ((s.term id).mac m).shown.keys ≠ []) :
    ((s.term id).mac m).shown.away.isNone = true ↔ (s.term id).host.shown.holder = some (Kind.peer, m) := by
  have haway := (hgood.side id m).away hl hquiet.coming hP
  rw [State.comes_to_hold, State.arriving, hquiet.down, hquiet.host] at haway
  exact haway

/-- A window of a Mac that is told it is the owner: the host says it of the Mac, and the Mac of
the window. -/
theorem quiet_told_mac (hl : s.link m ≠ none) (hk : k ∈ ((s.term id).mac m).shown.keys)
    (htold : s.is_told id (some m) k) :
    (s.term id).host.shown.holder = some (Kind.peer, m) ∧ ((s.term id).mac m).shown.holder = some k := by
  have hmac := hgood.is_mac id m
  have hok : Machine.Ok (s.machine id (some m)) := hgood.mac id m
  have hholder := (hok.is_told (hquiet.mac m) hk (hmac.ne_peer hk)).mp htold
  exact ⟨(quiet_away hgood hquiet hl (ne_nil_of_mem hk)).mp (hmac.holder hk hholder), hholder⟩

theorem quiet_told_host (hk : k ∈ (s.term id).host.shown.keys) (hlocal : k.1 ≠ .peer) :
    s.is_told id none k ↔ (s.term id).host.shown.holder = some k := by
  have hok : Machine.Ok (s.machine id none) := hgood.host id
  exact hok.is_told hquiet.host hk hlocal

/-- The owner at the host is a surface of it, or a connected Mac that shows the terminal. -/
theorem quiet_holder (hnoticed : s.Noticed id) (hh : (s.term id).host.shown.holder = some k) : k ∈ (s.term id).host.shown.keys ∧
    ∀ m, k = (Kind.peer, m) → s.link m ≠ none ∧ ((s.term id).mac m).shown.keys ≠ [] := by
  have hin : k ∈ (s.term id).host.shown.keys := by
    rw [Shown.holder_eq, hgood.none_away id] at hh
    obtain ⟨first, hfirst, he⟩ := map_eq_some_iff.mp hh
    obtain rfl : first = k := he
    exact mem_of_mem_head? hfirst
  refine ⟨hin, fun m hm => ?_⟩
  subst hm
  rcases hnoticed m hh with hended | hshows
  · have hl : s.link m ≠ none :=
      ((hgood.side id m).linked hin).resolve_right (Nat.not_lt.mpr (Nat.le_of_eq hended))
    refine ⟨hl, fun hP => ?_⟩
    have hlate := (hgood.side id m).left hl hquiet.coming hP hin
    exact absurd hended (Nat.ne_of_gt hlate)
  · exact hshows

/-- Where some surface is told that it is the owner, the owner is one that is there. -/
theorem quiet_noticed (h : ∃ p : Place × Key, s.shows id p.1 p.2 ∧ s.is_told id p.1 p.2) :
    s.Noticed id := by
  obtain ⟨⟨place, k⟩, hshows, htold⟩ := h
  intro m hm
  cases place with
  | none =>
    have hk := (quiet_told_host hgood hquiet hshows.1 hshows.2).mp htold
    exact absurd (congrArg Prod.fst (some.inj (hk.symm.trans hm))) hshows.2
  | some m' =>
    obtain ⟨hhost, -⟩ := quiet_told_mac hgood hquiet hshows.1 hshows.2 htold
    obtain rfl : m' = m := congrArg Prod.snd (some.inj (hhost.symm.trans hm))
    exact Or.inr ⟨hshows.1, ne_nil_of_mem hshows.2⟩

theorem quiet_one (hnoticed : s.Noticed id) (hshown : ∃ place k, s.shows id place k) :
    ∃! p : Place × Key, s.shows id p.1 p.2 ∧ s.is_told id p.1 p.2 := by
  -- somebody shows it, so the host has an owner
  have hsome : (s.term id).host.shown.holder ≠ none := fun hn => by
    have hempty := Shown.holder_eq_none.mp hn
    obtain ⟨place, k, hk⟩ := hshown
    cases place with
    | none =>
      have hin : k ∈ (s.term id).host.shown.keys := hk.1
      rw [hempty] at hin
      exact not_mem_nil hin
    | some m =>
      have hin := (hgood.side id m).here hk.1 hquiet.coming (ne_nil_of_mem hk.2)
      rw [hempty] at hin
      exact not_mem_nil hin
  obtain ⟨owner, howner⟩ := ne_none_iff_exists'.mp hsome
  obtain ⟨hin, hpeer⟩ := quiet_holder hgood hquiet hnoticed howner
  by_cases hk : owner.1 = .peer
  -- the owner is a Mac, and there the first of its windows
  · obtain ⟨hl, hP⟩ := hpeer owner.2 (Prod.ext hk rfl)
    have hsame : owner = (Kind.peer, owner.2) := Prod.ext hk rfl
    rw [hsame] at howner
    have haway := (quiet_away hgood hquiet hl hP).mpr howner
    obtain ⟨first, rest, hkeys⟩ := exists_cons_of_ne_nil hP
    have hfirst : first ∈ ((s.term id).mac owner.2).shown.keys := hkeys ▸ mem_cons_self
    have hholder : ((s.term id).mac owner.2).shown.holder = some first := by
      rw [Shown.holder_eq, hkeys, isNone_iff_eq_none.mp haway]
      rfl
    have hok : Machine.Ok (s.machine id (some owner.2)) := hgood.mac id owner.2
    refine ⟨(some owner.2, first), ⟨⟨hl, hfirst⟩, ?_⟩, ?_⟩
    · exact (hok.is_told (hquiet.mac _) hfirst ((hgood.is_mac id _).ne_peer hfirst)).mpr hholder
    · rintro ⟨place, k⟩ ⟨hshows, htold⟩
      cases place with
      | none =>
        have hk' := (quiet_told_host hgood hquiet hshows.1 hshows.2).mp htold
        have he := some.inj (hk'.symm.trans howner)
        exact absurd (congrArg Prod.fst he) hshows.2
      | some m =>
        obtain ⟨hhost, hmac⟩ := quiet_told_mac hgood hquiet hshows.1 hshows.2 htold
        have hm : m = owner.2 := congrArg Prod.snd (some.inj (hhost.symm.trans howner))
        subst hm
        exact congrArg (Prod.mk _) (some.inj (hmac.symm.trans hholder))
  -- the owner is a surface of the host
  · refine ⟨(none, owner), ⟨⟨hin, hk⟩, (quiet_told_host hgood hquiet hin hk).mpr howner⟩, ?_⟩
    rintro ⟨place, k⟩ ⟨hshows, htold⟩
    cases place with
    | none =>
      have hk' := (quiet_told_host hgood hquiet hshows.1 hshows.2).mp htold
      exact congrArg (Prod.mk _) (some.inj (hk'.symm.trans howner))
    | some m =>
      obtain ⟨hhost, -⟩ := quiet_told_mac hgood hquiet hshows.1 hshows.2 htold
      have he := some.inj (howner.symm.trans hhost)
      exact absurd (congrArg Prod.fst he) hk

end

end

/-- Control of a terminal is one surface's in every state of an orderly run. -/
theorem one_owner {s : State} (h : Reachable (system.when State.Orderly) s) : OneOwner s := by
  have hgood := good_of_reachable h
  refine ⟨fun id place o ho => Shown.owner_mem ho, fun e s' hstep id place k k' hk hk' hne => ?_,
    fun _ _ _ _ => Shown.apply_changed, fun _ _ _ => Shown.hold_away_changed,
    fun id hquiet hshown => ⟨fun hnoticed => quiet_one hgood hquiet hnoticed hshown,
      fun hone => quiet_noticed hgood hquiet hone.exists⟩⟩
  exact step_gives_way hstep hk hk' hne

/-- A window of a Mac presents a terminal, and is told that it is the owner. -/
def presented_run : List Event :=
  [.connect ['b'], .attach ['b'] ['t'], .mac ['b'] ['t'] .present ⟨.window, ['w'], []⟩, .mac_tells ['b'] ['t'] 0,
    .handle ['b'] ['t'], .host_tells ['t'] 0, .hold ['b'] ['t']]

/-- Its connection goes and a new one comes up, and only then the host finds that the old one has
gone. -/
def late_run : List Event :=
  presented_run ++ [Event.cut ['b'], Event.connect ['b'], Event.handle ['b'] ['t'], Event.host_tells ['t'] 0,
    Event.hold ['b'] ['t'], Event.notice ['b'], Event.host_tells ['t'] 0,
    Event.host ['t'] .present ⟨.window, ['h'], []⟩, Event.host_tells ['t'] 0]

/-- A window of the host presents the terminal too, and claims it. -/
def claimed_run : List Event :=
  presented_run ++ [Event.host ['t'] .present ⟨.window, ['h'], []⟩, Event.host_tells ['t'] 0,
    Event.host ['t'] .claim ⟨.window, ['h'], []⟩, Event.host_tells ['t'] 0, Event.hold ['b'] ['t'],
    Event.mac_tells ['b'] ['t'] 0]

/-! ## A Mac that no event is about

A Mac that no event is about stays as it was at the start. -/

/-- The Mac that an event is about. -/
def Event.of_mac : Event → Option Str
  | .mac m _ _ _ | .mac_leaves m _ | .mac_tells m _ _ | .handle m _ | .hold m _ | .attach m _ | .detach m _
  | .connect m | .cut m | .notice m => some m
  | _ => none

structure Untouched (s : State) (m : Str) : Prop where
  mac : ∀ id, (s.term id).mac m = {}
  up : ∀ id, (s.term id).up m = []
  down : ∀ id, (s.term id).down m = []
  link : s.link m = none

section
variable {s s' : State} {id m : Str}

theorem Untouched.on (h : Untouched s m) {f : Term → Term} (hmac : (f (s.term id)).mac m = (s.term id).mac m)
    (hup : (f (s.term id)).up m = (s.term id).up m) (hdown : (f (s.term id)).down m = (s.term id).down m) :
    Untouched (s.on id f) m := by
  exact ⟨on_all (P := fun t => t.mac m = {}) (hmac.trans (h.mac id)) h.mac,
    on_all (P := fun t => t.up m = []) (hup.trans (h.up id)) h.up,
    on_all (P := fun t => t.down m = []) (hdown.trans (h.down id)) h.down, h.link⟩

/-- What handling a frame leaves as it was. -/
theorem handle_keeps (t : Term) (m : Str) (who : Owner) (conn : ℕ) (frame : Frame) (rest : List Frame) :
    (t.handle m who conn frame rest).mac = t.mac ∧
      (t.handle m who conn frame rest).up = update t.up m rest ∧
      (t.handle m who conn frame rest).down = t.down := by
  match frame with
  | .unsub | .ctl .unpresent => exact ⟨rfl, rfl, rfl⟩
  | .ctl .present | .ctl .claim =>
    unfold Term.handle
    dsimp only
    split <;> exact ⟨rfl, rfl, rfl⟩

/-- The others' steps leave a Mac that is away as it is. -/
theorem Untouched.step (h : Untouched s m) {e : Event} (hstep : s.step e = some s') (he : e.of_mac ≠ some m) :
    Untouched s' m := by
  have hother : ∀ {m' : Str}, Event.of_mac e = some m' → m ≠ m' := fun hm hn => he (by rw [hm, hn])
  -- what is written for another Mac is read as it was for this one
  cases e with
  | host id op who =>
    rw [State.step] at hstep
    split at hstep
    · exact some.inj hstep ▸ h.on rfl rfl rfl
    · cases hstep
  | mac m' id op who =>
    rw [State.step] at hstep
    split at hstep
    · exact some.inj hstep ▸ h.on (update_of_ne (hother rfl) ..) rfl rfl
    · cases hstep
  | host_leaves who =>
    rw [State.step] at hstep
    split at hstep
    · exact some.inj hstep ▸ ⟨h.mac, h.up, h.down, h.link⟩
    · cases hstep
  | mac_leaves m' who =>
    rw [State.step] at hstep
    split at hstep
    · exact some.inj hstep ▸ ⟨fun id => (update_of_ne (hother rfl) ..).trans (h.mac id), h.up, h.down,
        h.link⟩
    · cases hstep
  | host_tells id k =>
    rw [State.step] at hstep
    split at hstep
    next task _ =>
      -- nothing is sent to a Mac that is not connected
      have hframes : s.frames (s.term id) m task = [] := by
        rw [State.frames, h.link]
        cases task.reply <;> simp
      refine some.inj hstep ▸ h.on rfl rfl ?_
      change (s.term id).down m ++ s.frames (s.term id) m task = _
      rw [hframes, append_nil]
    next => cases hstep
  | mac_tells m' id k =>
    rw [State.step] at hstep
    split at hstep
    · exact some.inj hstep ▸ h.on (update_of_ne (hother rfl) ..) (update_of_ne (hother rfl) ..) rfl
    · cases hstep
  | handle m' id =>
    rw [State.step] at hstep
    split at hstep
    next conn frame rest _ _ =>
      obtain ⟨hmac, hup, hdown⟩ := handle_keeps (s.term id) m' (s.owner m') conn frame rest
      refine some.inj hstep ▸ h.on (congrFun hmac m) ?_ (congrFun hdown m)
      exact (congrFun hup m).trans (update_of_ne (hother rfl) ..)
    next => cases hstep
  | hold m' id =>
    rw [State.step] at hstep
    split at hstep
    · exact some.inj hstep ▸ h.on (update_of_ne (hother rfl) ..) rfl (update_of_ne (hother rfl) ..)
    · cases hstep
  | attach m' id => exact some.inj hstep ▸ ⟨h.mac, h.up, h.down, h.link⟩
  | detach m' id =>
    have hbase : Untouched { s with attached := update s.attached m' (update (s.attached m') id false) } m :=
      ⟨h.mac, h.up, h.down, h.link⟩
    exact some.inj hstep ▸ hbase.on rfl (update_of_ne (hother rfl) ..) rfl
  | connect m' =>
    rw [State.step] at hstep
    split at hstep
    · cases hstep
    · exact some.inj hstep ▸ ⟨h.mac, fun id => (update_of_ne (hother rfl) ..).trans (h.up id), h.down,
        (update_of_ne (hother rfl) ..).trans h.link⟩
  | cut m' =>
    rw [State.step] at hstep
    split at hstep
    · cases hstep
    · exact some.inj hstep ▸ ⟨h.mac, fun id => (update_of_ne (hother rfl) ..).trans (h.up id),
        fun id => (update_of_ne (hother rfl) ..).trans (h.down id),
        (update_of_ne (hother rfl) ..).trans h.link⟩
  | notice m' =>
    rw [State.step] at hstep
    split at hstep
    · cases hstep
    · exact some.inj hstep ▸ ⟨h.mac, h.up, h.down, h.link⟩
  | starts id | exits id => exact some.inj hstep ▸ h.on rfl rfl rfl

theorem Untouched.run (h : Untouched s m) {events : List Event} (hrun : events.foldlM State.step s = some s')
    (he : ∀ e ∈ events, e.of_mac ≠ some m) : Untouched s' m := by
  induction events generalizing s with
  | nil =>
    cases hrun
    exact h
  | cons e events ih =>
    rw [foldlM_cons, bind_eq_bind, bind_eq_some_iff] at hrun
    obtain ⟨middle, hmiddle, hrest⟩ := hrun
    exact ih (h.step hmiddle (he e mem_cons_self)) hrest fun e' he' => he e' (mem_cons_of_mem e he')

theorem other_mac {m : Str} (hm : m ≠ ['b']) {events : List Event}
    (h : ∀ e ∈ events, e.of_mac = none ∨ e.of_mac = some ['b']) : ∀ e ∈ events, e.of_mac ≠ some m := by
  intro e he hs
  rcases h e he with hn | hb
  · exact nomatch hn.symm.trans hs
  · exact hm (some.inj (hs.symm.trans hb))

/-- At the end of a run about one Mac nothing is on its way, if it is so for that Mac. -/
theorem quiet_of_run {events : List Event} (hrun : events.foldlM State.step ({} : State) = some s)
    (hevents : ∀ e ∈ events, e.of_mac = none ∨ e.of_mac = some ['b']) (hhost : (s.term id).host.todo = [])
    (hmac : ((s.term id).mac ['b']).todo = []) (hup : (s.term id).up ['b'] = [])
    (hdown : (s.term id).down ['b'] = []) : s.Quiet id := by
  have hother := fun {m : Str} (hm : m ≠ ['b']) => Untouched.run (m := m)
    ⟨fun _ => rfl, fun _ => rfl, fun _ => rfl, rfl⟩ hrun (other_mac hm hevents)
  refine ⟨hhost, fun m => ?_, fun m => ?_, fun m => ?_⟩
  · by_cases hm : m = ['b']
    · exact hm ▸ hmac
    · rw [(hother hm).mac]
  · by_cases hm : m = ['b']
    · exact hm ▸ hup
    · exact (hother hm).up _
  · by_cases hm : m = ['b']
    · exact hm ▸ hdown
    · exact (hother hm).down _

end

/-- What the end of the late run is looked at for. -/
def State.seen (s : State) : Bool :=
  decide ((s.term ['t']).host.todo = []) && decide (((s.term ['t']).mac ['b']).todo = []) &&
  decide ((s.term ['t']).up ['b'] = []) && decide ((s.term ['t']).down ['b'] = []) &&
  decide (s.ended ['b'] = 0) && decide (s.link ['b'] = some 1) &&
  decide ((s.term ['t']).host.shown.keys = [(.window, ['h'])]) &&
  decide (((s.term ['t']).mac ['b']).shown.keys = [(.window, ['w'])]) &&
  decide (((s.term ['t']).host.told (.window, ['h'])).map Owner.key = some (.window, ['h'])) &&
  decide ((((s.term ['t']).mac ['b']).told (.window, ['w'])).map Owner.key = some (.window, ['w']))

/-- Two surfaces are told that they are the owner, with nothing on its way and every end noticed. -/
theorem two_owners : ∃ s : State, Reachable system s ∧ s.Quiet ['t'] ∧ s.ended ['b'] = 0 ∧
    s.shows ['t'] none (.window, ['h']) ∧ s.is_told ['t'] none (.window, ['h']) ∧
    s.shows ['t'] (some ['b']) (.window, ['w']) ∧ s.is_told ['t'] (some ['b']) (.window, ['w']) := by
  have hstart : Reachable system ({} : State) := .start ⟨_, _, rfl⟩
  have hseen : (late_run.foldlM State.step ({} : State)).map State.seen = some true := by decide +kernel
  obtain ⟨s, hsome, hs⟩ := map_eq_some_iff.mp hseen
  simp only [State.seen, Bool.and_eq_true, decide_eq_true_eq] at hs
  obtain ⟨⟨⟨⟨⟨⟨⟨⟨⟨hhost, hmac⟩, hup⟩, hdown⟩, hended⟩, hlink⟩, hkeys⟩, hkeys'⟩, htold⟩, htold'⟩ := hs
  have hevents : ∀ e ∈ late_run, e.of_mac = none ∨ e.of_mac = some ['b'] := by
    simp [late_run, presented_run, Event.of_mac]
  refine ⟨s, hstart.run (fun _ _ _ h => h) hsome, quiet_of_run hsome hevents hhost hmac hup hdown, hended,
    ⟨?_, fun h => nomatch h⟩, htold, ⟨fun h => (nomatch hlink.symm.trans h), ?_⟩, htold'⟩
  · rw [hkeys]
    exact mem_cons_self
  · rw [hkeys']
    exact mem_cons_self

/-- The terminal passes from a window of a Mac to one of the host, and only that one is told that it
is the owner. -/
theorem one_owner_claimed : ∃ s : State, Reachable (system.when State.Orderly) s ∧ s.Quiet ['t'] ∧
    s.shows ['t'] (some ['b']) (.window, ['w']) ∧ s.is_told ['t'] none (.window, ['h']) ∧
    ∃! p : Place × Key, s.shows ['t'] p.1 p.2 ∧ s.is_told ['t'] p.1 p.2 := by
  have h₀ : Reachable (system.when State.Orderly) ({} : State) := .start ⟨_, _, rfl⟩
  have h₁ := h₀.next (a := Event.connect ['b']) ⟨trivial, rfl⟩
  have h₂ := h₁.next (a := Event.attach ['b'] ['t']) ⟨trivial, rfl⟩
  have h₃ := h₂.next (a := Event.mac ['b'] ['t'] .present ⟨.window, ['w'], []⟩) ⟨⟨rfl, fun _ => rfl⟩, rfl⟩
  have h₄ := h₃.next (a := Event.mac_tells ['b'] ['t'] 0) ⟨trivial, rfl⟩
  have h₅ := h₄.next (a := Event.handle ['b'] ['t']) ⟨⟨rfl, fun _ _ _ => rfl⟩, rfl⟩
  have h₆ := h₅.next (a := Event.host_tells ['t'] 0) ⟨trivial, rfl⟩
  have h₇ := h₆.next (a := Event.hold ['b'] ['t']) ⟨rfl, rfl⟩
  have h₈ := h₇.next (a := Event.host ['t'] .present ⟨.window, ['h'], []⟩) ⟨rfl, rfl⟩
  have h₉ := h₈.next (a := Event.host_tells ['t'] 0) ⟨trivial, rfl⟩
  have h₁₀ := h₉.next (a := Event.host ['t'] .claim ⟨.window, ['h'], []⟩) ⟨rfl, rfl⟩
  have h₁₁ := h₁₀.next (a := Event.host_tells ['t'] 0) ⟨trivial, rfl⟩
  have h₁₂ := h₁₁.next (a := Event.hold ['b'] ['t']) ⟨rfl, rfl⟩
  have h₁₃ := h₁₂.next (a := Event.mac_tells ['b'] ['t'] 0) ⟨trivial, rfl⟩
  obtain ⟨s, hs, hrun, hhost, hmac, hup, hdown, hholder, hshows, htold⟩ : ∃ s : State,
      Reachable (system.when State.Orderly) s ∧ claimed_run.foldlM State.step ({} : State) = some s ∧
        (s.term ['t']).host.todo = [] ∧ ((s.term ['t']).mac ['b']).todo = [] ∧
        (s.term ['t']).up ['b'] = [] ∧ (s.term ['t']).down ['b'] = [] ∧
        (s.term ['t']).host.shown.holder = some (.window, ['h']) ∧
        s.shows ['t'] (some ['b']) (.window, ['w']) ∧ s.is_told ['t'] none (.window, ['h']) :=
    ⟨_, h₁₃, rfl, rfl, rfl, rfl, rfl, rfl, ⟨by decide, by decide⟩, rfl⟩
  have hquiet : s.Quiet ['t'] := by
    refine quiet_of_run hrun ?_ hhost hmac hup hdown
    simp [claimed_run, presented_run, Event.of_mac]
  have hnoticed : s.Noticed ['t'] := fun m hm => by cases hholder.symm.trans hm
  exact ⟨s, hs, hquiet, hshows, htold, ((one_owner hs).one _ hquiet ⟨_, _, hshows⟩).mp hnoticed⟩

end Lpm.Control
