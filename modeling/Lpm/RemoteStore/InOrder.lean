/-
The changes in the file are those of the saves, one after another.

While a save holds the lock of the file nobody else writes it, so what it read is what it
replaces (`Fits`). The one case that takes the common part from memory is a file that is
not there yet, and then no memory holds any: that is `Inv.first`, and it is why a file that
is damaged must not look as if it were not there.
-/
import Lpm.RemoteStore.Instances

set_option autoImplicit false

open Transition

namespace Lpm.RemoteStore

open List Option Function

section
variable {ι Raw δ ν τ : Type} (c : Serde Raw δ ν) (path : String)

/-- What is so of a process where it stands. -/
def Fits (s : State ι Raw δ ν τ) (j : ι) : Phase Raw δ ν τ → Prop
  | .idle => True
  | .waits _ mem => s.mem j = mem
  | .reads o current => s.flock = some j ∧ s.mem j = o.mem ∧ current = o.mem ∧ s.file = o.file
  | .writes o current out next raw => s.flock = some j ∧ s.mem j = o.mem ∧ current = o.mem ∧
    s.file = o.file ∧ o.f (rebase_owned_settings (load_config c s.file) o.mem) = some (out, next) ∧
    ∀ r, raw = some r → s.file = .ok r
  | .remembers o _ next => s.flock = some j ∧ load_config c s.file = next ∧
    read_base c path s.file ≠ .FirstRun ∧ ⟨j, o.mem, o.f⟩ ∈ s.changes
  | .refreshes => True
  | .adopts _ => read_base c path s.file ≠ .FirstRun

/-- The invariant, but for what is so of the process that is just moving. -/
structure Inv (file : File Raw) (moving : Option ι) (s : State ι Raw δ ν τ) : Prop where
  replayed : load_config c s.file = replay (load_config c file) s.changes
  usable : ∀ e, read_base c path s.file ≠ .Unusable e
  damaged : ∀ read, s.damage = some read → ∃ e, read_base c path read = .Unusable e
  first : read_base c path s.file = .FirstRun →
    ∀ j, (s.mem j).shared = (RemoteConfig.default : RemoteConfig δ ν).shared
  fits : ∀ j, moving ≠ some j → Fits c path s j (s.phase j)

/-- What others do leaves a process its footing, as long as they do not take the lock from
it or write while it has it. -/
theorem Fits.frame {s s' : State ι Raw δ ν τ} {j : ι} {p : Phase Raw δ ν τ}
    (h : Fits c path s j p) (hmem : s'.mem j = s.mem j)
    (hlock : s.flock = some j → s'.flock = some j ∧ s'.file = s.file)
    (hfirst : read_base c path s.file ≠ .FirstRun → read_base c path s'.file ≠ .FirstRun)
    (hchanges : s.changes ⊆ s'.changes) : Fits c path s' j p := by
  cases p with
  | idle => trivial
  | waits f mem => exact hmem.trans h
  | reads o current =>
    obtain ⟨hheld, hm, hcurrent, hfile⟩ := h
    obtain ⟨hheld', hfile'⟩ := hlock hheld
    exact ⟨hheld', hmem.trans hm, hcurrent, hfile'.trans hfile⟩
  | writes o current out next raw =>
    obtain ⟨hheld, hm, hcurrent, hfile, hf, hraw⟩ := h
    obtain ⟨hheld', hfile'⟩ := hlock hheld
    refine ⟨hheld', hmem.trans hm, hcurrent, hfile'.trans hfile, ?_, ?_⟩
    · rwa [hfile']
    · rwa [hfile']
  | remembers o out next =>
    obtain ⟨hheld, hnext, hthere, hdone⟩ := h
    obtain ⟨hheld', hfile'⟩ := hlock hheld
    exact ⟨hheld', by rwa [hfile'], hfirst hthere, hchanges hdone⟩
  | refreshes => trivial
  | adopts disk => exact hfirst h

end

section
variable {ι Raw δ ν τ : Type} {c : Serde Raw δ ν} {path : String} {file : File Raw}
variable {s : State ι Raw δ ν τ} {i : ι}

theorem Inv.skip (h : Inv c path file none s) : Inv c path file (some i) s :=
  { h with fits := fun j _ => h.fits j (by simp) }

theorem Inv.fits_self (h : Inv c path file none s) : Fits c path s i (s.phase i) :=
  h.fits i (by simp)

/-- A read that gives something to build on is one of the file as it was written. -/
theorem Inv.read_eq {m : Option ι} (h : Inv c path file m s)
    (hread : ∀ e, read_base c path s.read ≠ .Unusable e) : s.read = s.file := by
  cases hd : s.damage with
  | none => rw [State.read, hd, getD_none]
  | some read =>
    obtain ⟨e, he⟩ := h.damaged read hd
    rw [State.read, hd, getD_some] at hread
    exact absurd he (hread e)

/-- What any read loads has nothing in common with anyone where there is no file yet. -/
theorem Inv.load_first {m : Option ι} (hc : c.Lawful) (h : Inv c path file m s)
    (hfirst : read_base c path s.file = .FirstRun) :
    load_config c s.read = (RemoteConfig.default : RemoteConfig δ ν) := by
  cases hd : s.damage with
  | none =>
    rw [State.read, hd, getD_none]
    exact read_base_first hc hfirst
  | some read =>
    obtain ⟨e, he⟩ := h.damaged read hd
    rw [State.read, hd, getD_some]
    exact read_base_unusable he

/-- Either way a save starts from what the file holds, with its own settings on top. -/
theorem Inv.start {m : Option ι} (hc : c.Lawful) (h : Inv c path file m s)
    {current next : RemoteConfig δ ν} {raw : Option Raw} (hcurrent : s.mem i = current)
    (hstart : (read_base c path s.read).start current = .ok (next, raw)) :
    rebase_owned_settings next current =
        rebase_owned_settings (load_config c s.file) current ∧
      ∀ r, raw = some r → s.file = .ok r := by
  have hread : s.read = s.file := by
    refine h.read_eq fun e he => ?_
    rw [he] at hstart
    cases hstart
  rw [hread] at hstart
  cases hbase : read_base c path s.file with
  | Unusable e => exact absurd hbase (h.usable e)
  | Disk cfg bytes =>
    rw [hbase] at hstart
    cases hstart
    obtain ⟨hfile, hload⟩ := read_base_disk hbase
    refine ⟨by rw [hload], ?_⟩
    rintro r ⟨⟩
    exact hfile
  | FirstRun =>
    rw [hbase] at hstart
    cases hstart
    refine ⟨?_, fun r hr => nomatch hr⟩
    have hshared := h.first hbase i
    rw [hcurrent] at hshared
    rw [read_base_first hc hbase, rebase_self, rebase_default hshared]

variable [DecidableEq ι]

variable (h : Inv c path file (some i) s)
include h

theorem Inv.go {p : Phase Raw δ ν τ}
    (hp : Fits c path s i p) : Inv c path file none (s.go i p) := by
  refine { h with fits := fun j _ => ?_ }
  by_cases hj : j = i
  · subst hj
    have hphase : (s.go j p).phase j = p := update_self _ _ _
    rw [hphase]
    exact hp.frame c path rfl (fun hl => ⟨hl, rfl⟩) id (List.Subset.refl _)
  · have hphase : (s.go i p).phase j = s.phase j := update_of_ne hj _ _
    rw [hphase]
    refine (h.fits j ?_).frame c path rfl (fun hl => ⟨hl, rfl⟩) id (List.Subset.refl _)
    exact fun he => hj (some.inj he).symm

theorem Inv.leave : Inv c path file none (s.leave i) := by
  have hidle : Inv c path file none (s.go i .idle) := h.go trivial
  refine { hidle with fits := fun j _ => ?_ }
  by_cases hj : j = i
  · subst hj
    have hphase : (s.leave j).phase j = .idle := update_self _ _ _
    rw [hphase]
    trivial
  · refine (hidle.fits j (by simp)).frame c path rfl (fun hl => ⟨?_, rfl⟩) id (List.Subset.refl _)
    have hother : s.flock ≠ some i := by
      intro he
      exact hj (some.inj (hl.symm.trans he))
    exact (if_neg hother).trans hl

theorem Inv.memorize {cfg : RemoteConfig δ ν}
    (hcfg : read_base c path s.file = .FirstRun →
      cfg.shared = (RemoteConfig.default : RemoteConfig δ ν).shared) :
    Inv c path file (some i) (s.memorize i cfg) := by
  refine { h with first := fun hf j => ?_, fits := fun j hj => ?_ }
  · by_cases hj : j = i
    · subst hj
      have hmem : (s.memorize j cfg).mem j = cfg := update_self _ _ _
      rw [hmem]
      exact hcfg hf
    · have hmem : (s.memorize i cfg).mem j = s.mem j := update_of_ne hj _ _
      rw [hmem]
      exact h.first hf j
  · have hne : j ≠ i := fun he => hj (by rw [he])
    exact (h.fits j hj).frame c path (update_of_ne hne _ _) (fun hl => ⟨hl, rfl⟩) id
      (List.Subset.refl _)

omit h

omit [DecidableEq ι] in
theorem Inv.locks (h : Inv c path file (some i) s) (hfree : s.flock = none) :
    Inv c path file (some i) { s with flock := some i } := by
  refine { h with fits := fun j hj => ?_ }
  refine (h.fits j hj).frame c path rfl (fun hl => ?_) id (List.Subset.refl _)
  rw [hfree] at hl
  cases hl

omit [DecidableEq ι] in
/-- The bytes put in place are those of the change, whether they were there already or
not. -/
theorem commit_file {d : Done ι τ δ ν} {bytes : Raw} {raw data : Option Raw} (hraw : ∀ r, raw = some r → s.file = .ok r)
    (hdata : raw = some bytes ∧ data = none ∨ data = some bytes) :
    (s.commit d data).file = .ok bytes := by
  rcases hdata with ⟨hsame, rfl⟩ | rfl
  · exact hraw bytes hsame
  · rfl

omit [DecidableEq ι] in
theorem Inv.commits [DecidableEq Raw] (hc : c.Lawful) (h : Inv c path file (some i) s)
    {o : Save Raw δ ν τ} {current next : RemoteConfig δ ν} {out : τ} {raw data : Option Raw}
    {io : Except String Unit} (hfits : Fits c path s i (.writes o current out next raw))
    (hw : write_config_unless_same c next raw io = .ok data) :
    Inv c path file (some i) (s.commit ⟨i, current, o.f⟩ data) ∧
      Fits c path (s.commit ⟨i, current, o.f⟩ data) i (.remembers o out next) := by
  obtain ⟨hheld, hmem, rfl, -, hf, hraw⟩ := hfits
  obtain ⟨bytes, hbytes, hdata⟩ := write_ok hw
  let done : Done ι τ δ ν := ⟨i, o.mem, o.f⟩
  have hfile : (s.commit done data).file = .ok bytes := commit_file hraw hdata
  have hbase : read_base c path (s.commit done data).file = .Disk next bytes := by
    rw [hfile]
    exact read_base_written hc hbytes
  have hload : load_config c (s.commit done data).file = next := (read_base_disk hbase).2
  have hthere : read_base c path (s.commit done data).file ≠ .FirstRun := by
    rw [hbase]
    exact fun hn => nomatch hn
  refine ⟨⟨?_, ?_, ?_, ?_, ?_⟩, hheld, hload, hthere, ?_⟩
  · have happly : done.apply (load_config c s.file) = next := by
      simp only [done, Done.apply, hf]
    rw [hload, ← happly, h.replayed]
    exact replay_concat.symm
  · intro e he
    rw [hbase] at he
    cases he
  · intro read hread
    cases data with
    | none => exact h.damaged read hread
    | some _ => cases hread
  · exact fun hfirst => absurd hfirst hthere
  · intro j hj
    refine (h.fits j hj).frame c path rfl (fun hl => ?_) (fun _ => hthere) ?_
    · exact absurd (hheld.symm.trans hl) hj
    · exact subset_append_left _ _
  · exact mem_append_right _ mem_cons_self

/-! ## One step -/

variable [DecidableEq Raw]

/-- What a save that ends may say of the file and of its memory. -/
def Returns (c : Serde Raw δ ν) (s s' : State ι Raw δ ν τ) (i : ι) (o : Save Raw δ ν τ) :
    Answer τ → Prop
  | .ok (some _) => s'.mem i = load_config c s'.file ∧ ⟨i, o.mem, o.f⟩ ∈ s'.changes
  | _ => s'.mem i = o.mem ∧ s'.file = o.file ∧ s'.read = s.read ∧ s'.changes = s.changes

/-- Settings change where their own process is started again or its save ends well. -/
def Settled (s s' : State ι Raw δ ν τ) (i : ι) (a : Act τ δ ν) (answer : Option (Answer τ)) :
    Prop :=
  ∀ j, (s'.mem j).settings ≠ (s.mem j).settings →
    j = i ∧ (a = .restart ∨ ∃ out, answer = some (.ok (some out)))

variable {a : Act τ δ ν} {answer : Option (Answer τ)}

omit [DecidableEq ι] [DecidableEq Raw] in
theorem Settled.of_mem {s s' : State ι Raw δ ν τ}
    (h : s'.mem = s.mem) : Settled s s' i a answer := by
  intro j hj
  rw [h] at hj
  exact absurd rfl hj

structure Leads (c : Serde Raw δ ν) (path : String) (file : File Raw) (s : State ι Raw δ ν τ)
    (i : ι) (a : Act τ δ ν) (s' : State ι Raw δ ν τ) (answer : Option (Answer τ)) : Prop where
  inv : Inv c path file none s'
  settled : Settled s s' i a answer
  returns : ∀ r, answer = some r → ∃ o, (s.phase i).save = some o ∧ Returns c s s' i o r

variable {s' : State ι Raw δ ν τ}

omit [DecidableEq Raw] in
theorem Settled.of_memorize {cfg : RemoteConfig δ ν}
    (hmem : s'.mem = (s.memorize i cfg).mem)
    (h : cfg.settings = (s.mem i).settings ∨ a = .restart ∨ ∃ out, answer = some (.ok (some out))) :
    Settled s s' i a answer := by
  intro j hj
  rw [hmem] at hj
  by_cases hji : j = i
  · subst hji
    have hself : (s.memorize j cfg).mem j = cfg := update_self _ _ _
    rw [hself] at hj
    exact ⟨rfl, h.resolve_left hj⟩
  · have hother : (s.memorize i cfg).mem j = s.mem j := update_of_ne hji _ _
    rw [hother] at hj
    exact absurd rfl hj

omit [DecidableEq Raw] in
/-- A step that goes on to another phase. -/
theorem Inv.goes (h : Inv c path file none s) {p : Phase Raw δ ν τ}
    (hp : Fits c path s i p) : Leads c path file s i a (s.go i p) none :=
  ⟨h.skip.go hp, Settled.of_mem rfl, fun _ hr => nomatch hr⟩

omit [DecidableEq Raw] in
/-- A save that fails or is declined. -/
theorem Inv.gives_up (h : Inv c path file none s) {o : Save Raw δ ν τ}
    {r : Answer τ} (hsave : (s.phase i).save = some o) (hmem : s.mem i = o.mem)
    (hfile : s.file = o.file) (hr : ∀ out, r ≠ .ok (some out)) :
    Leads c path file s i a (s.leave i) (some r) := by
  refine ⟨h.skip.leave, Settled.of_mem rfl, ?_⟩
  rintro _ ⟨⟩
  refine ⟨o, hsave, ?_⟩
  unfold Returns
  split
  · exact absurd rfl (hr _)
  · exact ⟨hmem, hfile, rfl, rfl⟩

/-- A step of one client keeps the order of the saves. -/
theorem Inv.act_leads (hc : c.Lawful) (h : Inv c path file none s)
    (hlock : ∀ got, a = .lock_file got → got = true)
    (hact : act c path s i a (s.phase i) = some (s', answer)) :
    Leads c path file s i a s' answer := by
  have hfits := h.fits_self (i := i)
  unfold act at hact
  -- the phases in the order of `act`; one that writes nothing goes on as it was
  split at hact
  · cases hact
    exact h.goes rfl
  · next f mem hphase =>
    rw [hphase] at hfits
    split at hact
    · next hfree =>
      cases hact
      refine ⟨?_, Settled.of_mem rfl, fun _ hr => nomatch hr⟩
      exact (h.skip.locks hfree).go ⟨rfl, hfits, hfits, rfl⟩
    · cases hact
  · exact absurd (hlock _ rfl) Bool.false_ne_true
  · next o current hphase =>
    rw [hphase] at hfits
    obtain ⟨hheld, hmem, rfl, hfile⟩ := hfits
    have hsave : (s.phase i).save = some o := by rw [hphase]; rfl
    split at hact
    · next e hstart =>
      cases hact
      exact h.gives_up hsave hmem hfile fun out hr => nomatch hr
    · next next raw hstart =>
      obtain ⟨hbase, hraw⟩ := h.start hc hmem hstart
      split at hact
      · cases hact
        exact h.gives_up hsave hmem hfile fun out hr => nomatch hr
      · next out next' hf =>
        cases hact
        rw [hbase] at hf
        exact h.goes ⟨hheld, hmem, rfl, hfile, hf, hraw⟩
  · next io o current out next raw hphase =>
    rw [hphase] at hfits
    obtain ⟨hheld, hmem, -, hfile, -⟩ := id hfits
    have hsave : (s.phase i).save = some o := by rw [hphase]; rfl
    split at hact
    · cases hact
      exact h.gives_up hsave hmem hfile fun out hr => nomatch hr
    · next data hw =>
      cases hact
      obtain ⟨hinv, hremembers⟩ := h.skip.commits hc hfits hw
      exact ⟨hinv.go hremembers, Settled.of_mem rfl, fun _ hr => nomatch hr⟩
  · next o out next hphase =>
    rw [hphase] at hfits
    obtain ⟨-, hnext, hthere, hdone⟩ := hfits
    cases hact
    refine ⟨(h.skip.memorize fun hfirst => absurd hfirst hthere).leave,
      Settled.of_memorize rfl (Or.inr (Or.inr ⟨out, rfl⟩)), ?_⟩
    rintro _ ⟨⟩
    refine ⟨o, by rw [hphase]; rfl, ?_, hdone⟩
    exact (update_self _ _ _).trans hnext.symm
  · cases hact
    exact h.goes trivial
  · cases hact
    exact h.goes trivial
  · cases hact
    exact ⟨h, Settled.of_mem rfl, fun _ hr => nomatch hr⟩
  · split at hact
    · next disk raw hbase =>
      cases hact
      refine h.goes ?_
      have hread : s.read = s.file := by
        refine h.read_eq fun e he => ?_
        rw [hbase] at he
        cases he
      rw [hread] at hbase
      intro hfirst
      rw [hbase] at hfirst
      cases hfirst
    · cases hact
      exact h.goes trivial
    · cases hact
      exact h.goes trivial
  · next disk hphase =>
    rw [hphase] at hfits
    cases hact
    exact ⟨(h.skip.memorize fun hfirst => absurd hfirst hfits).go trivial,
      Settled.of_memorize rfl (Or.inl adopt_settings), fun _ hr => nomatch hr⟩
  · cases hact
    refine ⟨(h.skip.memorize fun hfirst => ?_).leave,
      Settled.of_memorize rfl (Or.inr (Or.inl rfl)), fun _ hr => nomatch hr⟩
    rw [h.load_first hc hfirst]
  · cases hact

theorem step_of {e : Event ι Raw τ δ ν}
    {answer : Option (ι × Answer τ)} (hstep : step c path s e = some (s', answer)) :
    (∃ i a r, e = .of i a ∧ answer = r.map (i, ·) ∧
      act c path s i a (s.phase i) = some (s', r)) ∨
    (answer = none ∧ s'.mem = s.mem ∧ ∃ damage, s' = { s with damage } ∧
      ∀ read, damage = some read → e = .hurt read) := by
  cases e with
  | of i a =>
    obtain ⟨⟨t, r⟩, hact, hr⟩ := map_eq_some_iff.mp hstep
    cases hr
    exact Or.inl ⟨i, a, r, rfl, rfl, hact⟩
  | hurt read =>
    rw [step] at hstep
    split at hstep
    · cases hstep
      refine Or.inr ⟨rfl, rfl, some read, rfl, ?_⟩
      rintro _ ⟨⟩
      rfl
    · cases hstep
  | heal =>
    cases hstep
    exact Or.inr ⟨rfl, rfl, none, rfl, fun read hr => nomatch hr⟩

omit [DecidableEq ι] [DecidableEq Raw] in
theorem minded_lock (h : Minded c path s (.of i a)) :
    ∀ got, a = .lock_file got → got = true := by
  rintro got rfl
  exact h

theorem inv_step (hc : c.Lawful) (h : Inv c path file none s) {e : Event ι Raw τ δ ν}
    (hminded : Minded c path s e) {answer : Option (ι × Answer τ)}
    (hstep : step c path s e = some (s', answer)) : Inv c path file none s' := by
  rcases step_of hstep with ⟨i, a, r, rfl, -, hact⟩ | ⟨-, -, damage, rfl, hhurt⟩
  · exact (h.act_leads hc (minded_lock hminded) hact).inv
  · refine { h with damaged := ?_ }
    intro read hread
    rw [hhurt read hread] at hminded
    exact hminded

theorem inv_init {s : State ι Raw δ ν τ} (hc : c.Lawful)
    (h : (instances c path file).init s) : Inv c path file none s := by
  obtain ⟨hfile, husable, hdamage, -, hphase, hmem, hchanges⟩ := h
  refine ⟨?_, ?_, ?_, ?_, ?_⟩
  · rw [hfile, hchanges]
    rfl
  · rwa [hfile]
  · intro read hread
    rw [hdamage] at hread
    cases hread
  · intro hfirst j
    rw [hfile] at hfirst
    rw [hmem j, read_base_first hc hfirst]
  · intro j _
    rw [hphase j]
    trivial

theorem inv_reachable (hc : c.Lawful)
    (h : Reachable ((instances c path file).when (Minded c path)) s) :
    Inv c path file none s := by
  induction h with
  | start h0 => exact inv_init hc h0
  | next _ hs ih =>
    obtain ⟨hminded, answer, hstep⟩ := hs
    exact inv_step hc ih hminded hstep

/-- What the file holds is what the changes of the saves give one after another, each over
what the one before left and with the settings of its own process on top: no save undoes
another's. Settings in memory move with their own process, and a save that fails or is
declined returns with the file as it got it and its memory as it was. -/
theorem changes_one_after_another (hc : c.Lawful)
    (h : Reachable ((instances c path file).when (Minded c path)) s) :
    load_config c s.file = replay (load_config c file) s.changes ∧
    (∀ P : Shared δ ν → Prop, P (load_config c file).shared →
      (∀ d ∈ s.changes, ∀ cfg out next, P cfg.shared → d.f cfg = some (out, next) →
        P next.shared) → P (load_config c s.file).shared) ∧
    ((∀ d ∈ s.changes, ∀ cfg out next, d.f cfg = some (out, next) → next.extra = cfg.extra) →
      (load_config c s.file).extra = (load_config c file).extra) ∧
    ∀ e s' answer, Minded c path s e → step c path s e = some (s', answer) →
      (∀ j, (s'.mem j).settings ≠ (s.mem j).settings →
        e = .of j .restart ∨ ∃ out, answer = some (j, .ok (some out))) ∧
      ∀ i r, answer = some (i, r) → ∃ o, (s.phase i).save = some o ∧ Returns c s s' i o r := by
  have hinv := inv_reachable hc h
  refine ⟨hinv.replayed, fun P h0 hkeep => ?_, fun hextra => ?_, ?_⟩
  · rw [hinv.replayed]
    exact replay_keeps h0 hkeep
  · let P : Shared δ ν → Prop := fun sh => sh.extra = (load_config c file).extra
    rw [hinv.replayed]
    exact replay_keeps (P := P) rfl fun d hd cfg out next hcfg hf =>
      (hextra d hd cfg out next hf).trans hcfg
  · intro e s' answer hminded hstep
    rcases step_of hstep with ⟨i, a, r, rfl, rfl, hact⟩ | ⟨rfl, hmem, -⟩
    · have hleads := hinv.act_leads hc (minded_lock hminded) hact
      refine ⟨fun j hj => ?_, fun j r' hr => ?_⟩
      · obtain ⟨rfl, rfl | ⟨out, rfl⟩⟩ := hleads.settled j hj
        · exact Or.inl rfl
        · exact Or.inr ⟨out, rfl⟩
      · obtain ⟨r'', hr'', heq⟩ := map_eq_some_iff.mp hr
        cases heq
        exact hleads.returns r' hr''
    · refine ⟨fun j hj => ?_, fun _ _ hr => nomatch hr⟩
      rw [hmem] at hj
      exact absurd rfl hj

end

/-! ## Two processes -/

/-- A file that is empty, that is no configuration, or that holds one. -/
inductive Text where
  | empty
  | garbage
  | json (cfg : RemoteConfig String Unit)
  deriving DecidableEq

def text : Serde Text String Unit where
  from_slice
    | .json cfg => some cfg
    | _ => none
  to_vec_pretty cfg := .ok (.json cfg)
  is_empty raw := decide (raw = .empty)

theorem text_lawful : text.Lawful where
  reads_back := by
    rintro cfg _ ⟨⟩
    rfl
  empty := by
    intro raw h
    obtain rfl := of_decide_eq_true h
    rfl

def phones : RemoteConfig String Unit :=
  { (RemoteConfig.default : RemoteConfig String Unit) with devices := ["old phone"] }

def start : State Bool Text String Unit Unit where
  file := .ok (.json phones)
  damage := none
  flock := none
  mem _ := phones
  phase _ := .idle
  changes := []

def pair_phone : Change Unit String Unit :=
  fun cfg => some ((), { cfg with devices := cfg.devices ++ ["new phone"] })

def remove_phone : Change Unit String Unit :=
  fun cfg => some ((), { cfg with devices := cfg.devices.filter (· ≠ "old phone") })

def keep_awake_on : Change Unit String Unit := fun cfg => some ((), { cfg with keep_awake := true })

def saved (i : Bool) (f : Change Unit String Unit) : List (Event Bool Text Unit String Unit) :=
  [.of i (.update f), .of i (.lock_file true), .of i .read_base, .of i (.write (.ok ())),
    .of i .remember]

def emptied : List (Event Bool Text Unit String Unit) :=
  saved true remove_phone ++ [.hurt (.ok .empty)] ++ saved false keep_awake_on

theorem start_init : (instances text "remote.json" (.ok (.json phones))).init start := by
  refine ⟨rfl, fun e he => ?_, rfl, rfl, fun _ => rfl, fun _ => rfl, rfl⟩
  have hdisk : read_base text "remote.json" (.ok (.json phones)) = .Disk phones (.json phones) := rfl
  rw [hdisk] at he
  cases he

/-- One process pairs a phone while the other, which has not heard of it, removes one. -/
theorem changes_one_after_another_two_saves :
    ∃ s : State Bool Text String Unit Unit, s.changes.length = 2 ∧
      (load_config text s.file).devices = ["new phone"] ∧
      load_config text s.file = replay phones s.changes := by
  have hrun : ∃ s, (saved true pair_phone ++ saved false remove_phone).foldlM
      (next text "remote.json") start = some s ∧ s.changes.length = 2 ∧
        (load_config text s.file).devices = ["new phone"] := ⟨_, rfl, rfl, rfl⟩
  obtain ⟨s, hs, htwo, hdevices⟩ := hrun
  have hminded : ∀ e ∈ saved true pair_phone ++ saved false remove_phone,
      ∀ s, Minded text "remote.json" s e := by
    simp [saved, Minded]
  exact ⟨s, htwo, hdevices, (changes_one_after_another text_lawful
    (reachable_run (.start start_init) hminded hs)).1⟩

/-- Where a damaged file reads as an empty one, the next save takes the devices from memory:
the phone that was removed is back. -/
theorem emptied_file_brings_back :
    ¬ ∀ s : State Bool Text String Unit Unit,
      Reachable ((instances text "remote.json" (.ok (.json phones))).when Locked) s →
        (load_config text s.file).shared = (replay phones s.changes).shared := by
  intro h
  have hrun : ∃ s, emptied.foldlM (next text "remote.json") start = some s ∧
        (load_config text s.file).shared.devices = ["old phone"] ∧
        (replay phones s.changes).shared.devices = [] := ⟨_, rfl, rfl, rfl⟩
  obtain ⟨s, hs, hback, hgone⟩ := hrun
  have hlocked : ∀ e ∈ emptied, ∀ s : State Bool Text String Unit Unit, Locked s e := by
    simp [emptied, saved, Locked]
  rw [h s (reachable_run (.start start_init) hlocked hs), hgone] at hback
  cases hback

end Lpm.RemoteStore
