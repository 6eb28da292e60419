/-
What a sync comes to: which versions the plan may replace, that both ends plan alike, and
how the computers stand afterwards.

After a round with the user's word, a computer stands in `Settled`: of every file it holds
this Mac's version, unless one of the two has deleted the version they last agreed on. A
round with another computer may bring new versions here, so the earlier ones are settled
again; in between they are only `Known`, which is what keeps the second pass from bringing
anything here.
-/
import Lpm.Ignored.Step

set_option autoImplicit false

open Keyed Writes

namespace Lpm.Ignored

open Function

/-! ## Folders -/

section
variable {d : Folder} {paths : List String} {p : String} {f : FileRec}

theorem by_path_manifest (d : Folder) (paths : List String) (p : String) :
    by_path (d.manifest paths) p = if within paths p then d.file p else none := by
  have hnodup : ((d.manifest paths).map FileRec.path).Nodup :=
    d.distinct.sublist (List.filter_sublist.map _)
  rw [by_path, collected_eq_get hnodup, Folder.manifest, Folder.file]
  by_cases hp : within paths p = true
  · rw [if_pos hp]
    exact get_filter _ fun f _ hf => hf ▸ hp
  · rw [if_neg hp]
    refine get_filter_none _ fun f _ hf => ?_
    rw [hf]
    exact Bool.eq_false_iff.mpr hp

/-- What a direction of a round that goes through leaves of a folder. -/
theorem send_file {step : Step} {files : List FileRec} {o : Copied} {to_peer : Bool}
    (ho : o.error = none) (hstep : step.error = none) (hfiles : (files.map FileRec.path).Nodup) :
    (∀ f ∈ files, (send d step files o to_peer).1.file f.path = some (o.touch f)) ∧
      (∀ p, p ∉ files.map FileRec.path → (send d step files o to_peer).1.file p = d.file p) ∧
      (send d step files o to_peer).2.error = none ∧
      (files = [] → (send d step files o to_peer).1 = d) ∧
      (send d step files o to_peer).2.received =
        step.received + if to_peer then 0 else files.length := by
  have htouch : (files.map o.touch).map FileRec.path = files.map FileRec.path := by
    rw [List.map_map]
    rfl
  by_cases hnil : files = []
  · subst hnil
    have hsend : send d step [] o to_peer = (d, step) := if_pos (.inl rfl)
    rw [hsend]
    refine ⟨(fun f hf => nomatch hf), fun _ _ => rfl, hstep, fun _ => rfl, ?_⟩
    cases to_peer <;> rfl
  · have hsend : send d step files o to_peer = _ := if_neg (by simp [hnil, hstep])
    rw [hsend]
    refine ⟨fun f hf => ?_, fun p hp => ?_, ho, fun h => absurd h hnil, ?_⟩
    · change get FileRec.path (put_all FileRec.path d.files
        ((if o.error = none then files else files.take o.landed).map o.touch)) f.path = _
      rw [if_pos ho]
      have hget := @get_put_all _ _ _ FileRec.path d.files (o.touch f) (files.map o.touch)
        (htouch ▸ hfiles) (List.mem_map_of_mem hf)
      exact hget
    · change get FileRec.path (put_all FileRec.path d.files
        ((if o.error = none then files else files.take o.landed).map o.touch)) p = _
      rw [if_pos ho, get_put_all_of_not_mem (htouch ▸ hp)]
      rfl
    · change step.received + (if to_peer then 0 else
        if o.error = none then files.length else o.counted) = _
      rw [if_pos ho]

end

/-! ## One round -/

/-- How one file stands between this Mac and another computer, and in the record of what they
last agreed on: a version only one of them holds is the one the other has deleted. -/
def Agrees (last : Option String) : Option FileRec → Option FileRec → Prop
  | some a, some b => a.digest = b.digest
  | some a, none => last = some a.digest
  | none, some b => last = some b.digest
  | none, none => True

/-- The files of a computer's list stand so. -/
def Settled (w : World) (slug : String) : Prop :=
  ∀ l, w.lists slug = some l → ∀ p, within l.paths p = true →
    Agrees (l.last p) (w.here.file p) ((w.there slug).file p)

/-- A file this Mac lacks is held there in the version they last agreed on. -/
def Known (w : World) (slug : String) : Prop :=
  ∀ l, w.lists slug = some l → ∀ p, within l.paths p = true → w.here.file p = none →
    ∀ b, (w.there slug).file p = some b → l.last p = some b.digest

theorem Settled.known {w : World} {slug : String} (h : Settled w slug) : Known w slug := by
  intro l hl p hp hhere b hb
  have hagrees := h l hl p hp
  rwa [hhere, hb] at hagrees

/-- Nothing goes wrong in the round. -/
structure RoundEnv.Smooth (env : RoundEnv) : Prop where
  here_manifest : env.here_manifest = none
  there_manifest : env.there_manifest = none
  push : env.push.error = none
  pull : env.pull.error = none

section
variable {w : World} {slug : String} {l : SyncList} {prefer : Option Prefer} {env : RoundEnv}
variable {p : String}

/-- The plan of a round. -/
def plan_of (w : World) (slug : String) (l : SyncList) (prefer : Option Prefer) : Plan :=
  plan (w.here.manifest l.paths) ((w.there slug).manifest l.paths) l.last prefer

theorem verdict_at_manifest (hp : within l.paths p = true) :
    verdict_at (w.here.manifest l.paths) ((w.there slug).manifest l.paths) l.last prefer p =
      verdict prefer (l.last p) (w.here.file p) ((w.there slug).file p) := by
  rw [verdict_at, by_path_manifest, by_path_manifest, if_pos hp, if_pos hp]

/-- What the other computer holds after a round, and this Mac. -/
def pushed (w : World) (slug : String) (l : SyncList) (prefer : Option Prefer) (env : RoundEnv) :
    Folder × Step :=
  send (w.there slug) { Step.default with conflicts := (plan_of w slug l prefer).conflicts }
    (plan_of w slug l prefer).push env.push true

def pulled (w : World) (slug : String) (l : SyncList) (prefer : Option Prefer) (env : RoundEnv) :
    Folder × Step :=
  send w.here (pushed w slug l prefer env).2 (plan_of w slug l prefer).pull env.pull false

/-- What is recorded after the round. -/
def recorded (w : World) (slug : String) (l : SyncList) (prefer : Option Prefer) : SyncList :=
  record l ((w.here.manifest l.paths).map FileRec.path ++
    ((w.there slug).manifest l.paths).map FileRec.path)
    ((plan_of w slug l prefer).agreed ++ digests (plan_of w slug l prefer).push ++
      digests (plan_of w slug l prefer).pull) (plan_of w slug l prefer).conflicts

/-- The world after the round. -/
def settle (w : World) (slug : String) (l : SyncList) (prefer : Option Prefer) (env : RoundEnv) :
    World where
  here := (pulled w slug l prefer env).1
  there := update w.there slug (pushed w slug l prefer env).1
  lists := update w.lists slug (some (recorded w slug l prefer))

variable (hsmooth : env.Smooth)
include hsmooth

theorem pushed_file :
    (∀ f ∈ (plan_of w slug l prefer).push,
      (pushed w slug l prefer env).1.file f.path = some (env.push.touch f)) ∧
    (∀ p, p ∉ (plan_of w slug l prefer).push.map FileRec.path →
      (pushed w slug l prefer env).1.file p = (w.there slug).file p) ∧
    (pushed w slug l prefer env).2.error = none ∧ (pushed w slug l prefer env).2.received = 0 := by
  obtain ⟨hput, hother, herror, -, hreceived⟩ := @send_file (w.there slug)
    { Step.default with conflicts := (plan_of w slug l prefer).conflicts }
    (plan_of w slug l prefer).push env.push true hsmooth.push rfl nodup_push
  exact ⟨hput, hother, herror, hreceived⟩

theorem pulled_file :
    (∀ f ∈ (plan_of w slug l prefer).pull,
      (pulled w slug l prefer env).1.file f.path = some (env.pull.touch f)) ∧
    (∀ p, p ∉ (plan_of w slug l prefer).pull.map FileRec.path →
      (pulled w slug l prefer env).1.file p = w.here.file p) ∧
    (pulled w slug l prefer env).2.error = none ∧
    ((plan_of w slug l prefer).pull = [] → (pulled w slug l prefer env).1 = w.here) ∧
    (pulled w slug l prefer env).2.received = (plan_of w slug l prefer).pull.length := by
  obtain ⟨-, -, herror, hreceived⟩ := @pushed_file w slug l prefer env hsmooth
  obtain ⟨hput, hother, herror', hnone, hreceived'⟩ := @send_file w.here
    (pushed w slug l prefer env).2 (plan_of w slug l prefer).pull env.pull false hsmooth.pull herror
    nodup_pull
  rw [hreceived, Nat.zero_add] at hreceived'
  exact ⟨hput, hother, herror', hnone, hreceived'⟩

/-- A round in which nothing goes wrong. -/
theorem round_smooth (hl : w.lists slug = some l) :
    round w slug prefer env = (settle w slug l prefer env, .ok (pulled w slug l prefer env).2) := by
  have herror := (@pulled_file w slug l prefer env hsmooth).2.2.1
  rw [round, hl]
  dsimp only
  rw [bring_in_step, hsmooth.here_manifest, hsmooth.there_manifest]
  dsimp only
  change (if (pulled w slug l prefer env).2.error.isSome then _ else _) = _
  rw [herror, if_neg (by decide), hl]
  rfl

/-! ## What a round leaves -/

variable {f : FileRec}

omit hsmooth in
theorem mem_push_path (hp : within l.paths p = true) (hf : f.path = p) :
    f ∈ (plan_of w slug l prefer).push ↔
      verdict prefer (l.last p) (w.here.file p) ((w.there slug).file p) = .push f := by
  rw [← verdict_at_manifest hp, ← hf]
  exact mem_push

omit hsmooth in
theorem mem_pull_path (hp : within l.paths p = true) (hf : f.path = p) :
    f ∈ (plan_of w slug l prefer).pull ↔
      verdict prefer (l.last p) (w.here.file p) ((w.there slug).file p) = .pull f := by
  rw [← verdict_at_manifest hp, ← hf]
  exact mem_pull

omit hsmooth in
theorem file_path {d : Folder} (h : d.file p = some f) : f.path = p := get_key h

/-- The other computer's version of a file after a round. -/
theorem settle_there (hp : within l.paths p = true) :
    ((settle w slug l prefer env).there slug).file p =
      match verdict prefer (l.last p) (w.here.file p) ((w.there slug).file p) with
      | .push f => some (env.push.touch f)
      | _ => (w.there slug).file p := by
  obtain ⟨hput, hother, -, -⟩ := @pushed_file w slug l prefer env hsmooth
  change ((update w.there slug _) slug).file p = _
  rw [update_self]
  split
  next f hv =>
    have hf := file_path (verdict_push hv).1
    rw [← hput f ((mem_push_path hp hf).mpr hv), hf]
  next hv =>
    refine hother p fun hmem => ?_
    obtain ⟨f, hf, hpath⟩ := List.mem_map.mp hmem
    exact hv f ((mem_push_path hp hpath).mp hf)

/-- And this Mac's. -/
theorem settle_here (hp : within l.paths p = true) :
    (settle w slug l prefer env).here.file p =
      match verdict prefer (l.last p) (w.here.file p) ((w.there slug).file p) with
      | .pull f => some (env.pull.touch f)
      | _ => w.here.file p := by
  obtain ⟨hput, hother, -⟩ := @pulled_file w slug l prefer env hsmooth
  change (pulled w slug l prefer env).1.file p = _
  split
  next f hv =>
    have hf := file_path (verdict_pull hv).1
    rw [← hput f ((mem_pull_path hp hf).mpr hv), hf]
  next hv =>
    refine hother p fun hmem => ?_
    obtain ⟨f, hf, hpath⟩ := List.mem_map.mp hmem
    exact hv f ((mem_pull_path hp hpath).mp hf)

omit hsmooth in
/-- What was agreed on a file that is left alone stays recorded while one side holds it. -/
theorem recorded_leave (hp : within l.paths p = true)
    (hv : verdict prefer (l.last p) (w.here.file p) ((w.there slug).file p) = .leave)
    (hheld : w.here.file p ≠ none ∨ (w.there slug).file p ≠ none) :
    (recorded w slug l prefer).last p = l.last p := by
  have hpresent : p ∈ (w.here.manifest l.paths).map FileRec.path ++
      ((w.there slug).manifest l.paths).map FileRec.path := by
    rw [List.mem_append, ← by_path_ne_none_iff, ← by_path_ne_none_iff, by_path_manifest,
      by_path_manifest, if_pos hp, if_pos hp]
    exact hheld
  have hagreed : p ∉ (plan_of w slug l prefer).agreed.map Prod.fst := by
    intro hmem
    obtain ⟨⟨q, d⟩, hd, rfl⟩ := List.mem_map.mp hmem
    have hv' := mem_agreed.mp hd
    rw [verdict_at_manifest hp, hv] at hv'
    cases hv'
  have hpush : p ∉ (digests (plan_of w slug l prefer).push).map Prod.fst := by
    intro hmem
    rw [digests, List.map_map] at hmem
    obtain ⟨f, hf, hpath⟩ := List.mem_map.mp hmem
    rw [mem_push_path hp hpath, hv] at hf
    cases hf
  have hpull : p ∉ (digests (plan_of w slug l prefer).pull).map Prod.fst := by
    intro hmem
    rw [digests, List.map_map] at hmem
    obtain ⟨f, hf, hpath⟩ := List.mem_map.mp hmem
    rw [mem_pull_path hp hpath, hv] at hf
    cases hf
  change write_all _ _ p = _
  rw [write_all_of_not_mem, if_pos hpresent]
  rw [List.map_map]
  change p ∉ List.map Prod.fst _
  rw [List.map_append, List.map_append, List.mem_append, List.mem_append]
  exact fun h => h.elim (fun h => h.elim hagreed hpush) hpull

omit hsmooth in
/-- With the user's word every verdict leaves a file as it is to stand. -/
theorem agrees_after {q : Prefer} {last last' : Option String} {x y : Option FileRec}
    {u v : FileRec → FileRec} (hu : ∀ f, (u f).digest = f.digest) (hv : ∀ f, (v f).digest = f.digest)
    (hleave : verdict (some q) last x y = .leave → x ≠ none ∨ y ≠ none → last' = last) :
    Agrees last'
      (match verdict (some q) last x y with
        | .pull f => some (u f)
        | _ => x)
      (match verdict (some q) last x y with
        | .push f => some (v f)
        | _ => y) := by
  -- a side that lacks the file has the digest it deleted, or takes the other's
  rcases x with _ | a <;> rcases y with _ | b
  · trivial
  · by_cases hlast : last = some b.digest
    · have hverdict : verdict (some q) last none (some b) = .leave := if_neg (not_not.mpr hlast)
      rw [hverdict]
      exact (hleave hverdict (.inr (Option.some_ne_none b))).trans hlast
    · have hverdict : verdict (some q) last none (some b) = .pull b := if_pos hlast
      rw [hverdict]
      exact hu b
  · by_cases hlast : last = some a.digest
    · have hverdict : verdict (some q) last (some a) none = .leave := if_neg (not_not.mpr hlast)
      rw [hverdict]
      exact (hleave hverdict (.inl (Option.some_ne_none a))).trans hlast
    · have hverdict : verdict (some q) last (some a) none = .push a := if_pos hlast
      rw [hverdict]
      exact (hv a).symm
  · by_cases hdigest : a.digest = b.digest
    · have hverdict : verdict (some q) last (some a) (some b) = .agree a.digest := if_pos hdigest
      rw [hverdict]
      exact hdigest
    · rcases hkeep : keep_here (some q) last a b with _ | _ | _
      · cases (keep_here_none_iff.mp hkeep).1
      · have hverdict : verdict (some q) last (some a) (some b) = .pull b := by
          rw [verdict, if_neg hdigest, hkeep]
        rw [hverdict]
        exact hu b
      · have hverdict : verdict (some q) last (some a) (some b) = .push a := by
          rw [verdict, if_neg hdigest, hkeep]
        rw [hverdict]
        exact (hv a).symm

/-- After a round with the user's word the files of the list stand as they are to. -/
theorem settle_settled (q : Prefer) :
    Settled (settle w slug l (some q) env) slug := by
  intro l' hl' p hp
  change update w.lists slug (some (recorded w slug l (some q))) slug = some l' at hl'
  rw [update_self] at hl'
  cases hl'
  have hp : within l.paths p = true := hp
  rw [settle_here hsmooth hp, settle_there hsmooth hp]
  exact agrees_after (fun _ => rfl) (fun _ => rfl) (recorded_leave hp)

/-- No file leaves this Mac. -/
theorem settle_keeps (h : (settle w slug l prefer env).here.file p = none) :
    w.here.file p = none := by
  obtain ⟨hput, hother, -⟩ := @pulled_file w slug l prefer env hsmooth
  by_cases hp : p ∈ (plan_of w slug l prefer).pull.map FileRec.path
  · obtain ⟨f, hf, rfl⟩ := List.mem_map.mp hp
    cases (hput f hf).symm.trans h
  · exact (hother p hp).symm.trans h

theorem settle_here_of_received
    (h : (pulled w slug l prefer env).2.received = 0) : (settle w slug l prefer env).here = w.here := by
  obtain ⟨-, -, -, hnone, hreceived⟩ := @pulled_file w slug l prefer env hsmooth
  exact hnone (List.length_eq_zero_iff.mp (hreceived.symm.trans h))

/-- A round that keeps this Mac's versions brings nothing to it that was known. -/
theorem settle_here_of_known (hl : w.lists slug = some l) (h : Known w slug) :
    (settle w slug l (some .Here) env).here = w.here := by
  obtain ⟨-, -, -, hnone, -⟩ := @pulled_file w slug l (some .Here) env hsmooth
  refine hnone (List.eq_nil_iff_forall_not_mem.mpr fun f hf => ?_)
  obtain ⟨hthere, hagreed, hkeep⟩ := verdict_pull (mem_pull.mp hf)
  rw [by_path_manifest] at hthere hagreed hkeep
  split_ifs at hthere with hp
  rw [if_pos hp] at hagreed hkeep
  cases hhere : w.here.file f.path with
  | none => exact hagreed hhere (h l hl f.path hp hhere f hthere)
  | some a => cases (hkeep a hhere).2

omit hsmooth

/-! ## The others -/

section
variable {s : String}

theorem Known.settle (h : Known w s) (hsmooth : env.Smooth) (hs : s ≠ slug) :
    Known (Ignored.settle w slug l prefer env) s := by
  intro l' hl' p hp hhere b hb
  change update w.lists slug _ s = some l' at hl'
  change (update w.there slug _ s).file p = some b at hb
  rw [update_of_ne hs] at hl' hb
  exact h l' hl' p hp (settle_keeps hsmooth hhere) b hb

theorem Settled.settle (h : Settled w s) (hs : s ≠ slug)
    (hhere : (Ignored.settle w slug l prefer env).here = w.here) :
    Settled (Ignored.settle w slug l prefer env) s := by
  intro l' hl' p hp
  change update w.lists slug _ s = some l' at hl'
  rw [update_of_ne hs] at hl'
  rw [hhere]
  change Agrees _ _ ((update w.there slug _ s).file p)
  rw [update_of_ne hs]
  exact h l' hl' p hp

theorem listed_settle (h : (w.lists s).isSome = true) :
    ((settle w slug l prefer env).lists s).isSome = true := by
  change (update w.lists slug _ s).isSome = true
  by_cases hs : s = slug
  · rw [hs, update_self]
    rfl
  · rwa [update_of_ne hs]

end

end

/-! ## The passes -/

/-- Nothing goes wrong in any round, and nobody stops it. -/
structure Env.Smooth (env : Env) : Prop where
  first : ∀ n, (env.first n).Smooth
  again : ∀ n, (env.again n).Smooth
  stop_first : ∀ n, env.stop_first n = false
  stop_again : ∀ n, env.stop_again n = false

/-- The first pass after the rounds with some computers: all of them are known, and those
that came no earlier than the last that brought files here are settled. -/
structure Passed (slugs : List String) (done : List String) (pass : Pass) : Prop where
  going : pass.stopped = false
  out : pass.out.map Prod.fst = done
  ok : ∀ r ∈ pass.out, ∃ step : Step, r.2 = .ok step ∧ step.error = none
  listed : ∀ s ∈ slugs, (pass.world.lists s).isSome = true
  known : ∀ s ∈ done, Known pass.world s
  brought : ∀ b, pass.brought_here = some b → b < done.length
  settled : ∀ n, pass.brought_here.getD 0 ≤ n → ∀ s, done[n]? = some s → Settled pass.world s

section
variable {slugs done : List String} {env : Env} {pass : Pass} {choice : Option Choice}

variable {slug : String}

/-- A round of the first pass in which nothing goes wrong. -/
theorem first_round_smooth (hgoing : pass.stopped = false) (henv : env.Smooth) {n i : ℕ}
    {prefer : Option Prefer} (hslug : slugs.getD i "" = slug) {l : SyncList}
    (hl : pass.world.lists slug = some l) :
    first_round slugs env pass n (i, prefer) =
      { pass with
        world := settle pass.world slug l prefer (env.first n)
        out := pass.out ++ [(slug, .ok (pulled pass.world slug l prefer (env.first n)).2)]
        brought_here := if (pulled pass.world slug l prefer (env.first n)).2.received > 0 then some n
          else pass.brought_here } := by
  unfold first_round
  rw [hgoing, henv.stop_first n, if_neg (by decide)]
  dsimp only
  rw [hslug, round_smooth (henv.first n) hl]
  simp only [decide_eq_true_eq]

theorem Passed.first_round (h : Passed slugs done pass) (henv : env.Smooth) {i : ℕ} {q : Prefer}
    (hslug : slugs[i]? = some slug) :
    Passed slugs (done ++ [slug]) (Ignored.first_round slugs env pass done.length (i, some q)) := by
  have hsmooth := henv.first done.length
  have hmem : slug ∈ slugs := List.mem_of_getElem? hslug
  obtain ⟨l, hl⟩ := Option.isSome_iff_exists.mp (h.listed slug hmem)
  have hget : slugs.getD i "" = slug := by rw [List.getD_eq_getElem?_getD, hslug, Option.getD_some]
  rw [first_round_smooth h.going henv hget hl]
  have hsettled := @settle_settled pass.world slug l (env.first done.length) hsmooth q
  constructor
  · exact h.going
  · rw [List.map_append, h.out]
    rfl
  · intro r hr
    rcases List.mem_append.mp hr with hr | hr
    · exact h.ok r hr
    · rw [List.mem_singleton.mp hr]
      exact ⟨_, rfl, (pulled_file hsmooth).2.2.1⟩
  · exact fun s hs => listed_settle (h.listed s hs)
  · intro s hs
    by_cases heq : s = slug
    · rw [heq]
      exact hsettled.known
    · refine (h.known s ?_).settle hsmooth heq
      simpa [heq] using hs
  · intro b hb
    dsimp only at hb
    rw [List.length_append, List.length_singleton]
    split_ifs at hb with hreceived
    · cases hb
      exact Nat.lt_succ_self _
    · exact Nat.lt_succ_of_lt (h.brought b hb)
  · intro n hn s hs
    by_cases heq : s = slug
    · rw [heq]
      exact hsettled
    dsimp only at hn ⊢
    -- the round's own computer is the last one, settled above
    have hlt : n < done.length := by
      by_contra hge
      rw [List.getElem?_append_right (not_lt.mp hge)] at hs
      have hs := List.mem_of_getElem? hs
      exact heq (List.mem_singleton.mp hs)
    rw [List.getElem?_append_left hlt] at hs
    split_ifs at hn with hreceived
    · exact absurd hn (not_le.mpr hlt)
    · refine (h.settled n hn s hs).settle heq (settle_here_of_received hsmooth ?_)
      omega

/-- The computers that an order names, in its order. -/
def named (slugs : List String) (next : List (ℕ × Option Prefer)) : List String :=
  next.map fun n => slugs.getD n.1 ""

theorem Passed.first_pass (henv : env.Smooth) {next : List (ℕ × Option Prefer)}
    (hnext : ∀ n ∈ next, n.1 < slugs.length ∧ ∃ q, n.2 = some q) (h : Passed slugs done pass) :
    Passed slugs (done ++ named slugs next) (Ignored.first_pass slugs env pass done.length next) := by
  induction next generalizing done pass with
  | nil =>
    rw [named, List.map_nil, List.append_nil]
    exact h
  | cons n next ih =>
    obtain ⟨i, prefer⟩ := n
    obtain ⟨hlt, q, hq⟩ := hnext _ List.mem_cons_self
    dsimp only at hlt hq
    subst hq
    have hslug : slugs[i]? = some (slugs.getD i "") := by
      rw [List.getD_eq_getElem?_getD, List.getElem?_eq_getElem hlt, Option.getD_some]
    have hrest := ih (fun n hn => hnext n (List.mem_cons_of_mem _ hn)) (h.first_round (q := q) henv hslug)
    rw [List.append_assoc, List.length_append] at hrest
    exact hrest

theorem each_round_some (c : Choice) : ∃ q, each_round (some c) = some q := by
  cases c <;> exact ⟨_, rfl⟩

/-- The order has every computer, each with a word when the user gave one. -/
theorem order_spec (slugs : List String) (c : Choice) :
    (∀ n ∈ order slugs (some c), n.1 < slugs.length ∧ ∃ q, n.2 = some q) ∧
      ∀ s ∈ slugs, s ∈ named slugs (order slugs (some c)) := by
  obtain ⟨first, hfirst, horder⟩ : ∃ first : Option ℕ, (∀ i, first = some i → i < slugs.length) ∧
      order slugs (some c) = (first.map fun i => (i, some Prefer.There)).toList ++
        ((List.range slugs.length).filter fun i => some i ≠ first).map fun i =>
          (i, each_round (some c)) := by
    cases c with
    | Newest | Here => exact ⟨none, (fun i hi => nomatch hi), rfl⟩
    | Peer s => exact ⟨_, fun i hi => (List.findIdx?_eq_some_iff_getElem.mp hi).1, rfl⟩
  rw [horder]
  constructor
  · intro n hn
    rcases List.mem_append.mp hn with hn | hn
    · obtain ⟨i, hi, rfl⟩ := Option.map_eq_some_iff.mp (Option.mem_toList.mp hn)
      exact ⟨hfirst i hi, .There, rfl⟩
    · obtain ⟨i, hi, rfl⟩ := List.mem_map.mp hn
      exact ⟨List.mem_range.mp (List.mem_of_mem_filter hi), each_round_some c⟩
  · intro s hs
    obtain ⟨i, hi, rfl⟩ := List.getElem_of_mem hs
    have hget : slugs.getD i "" = slugs[i] := by
      rw [List.getD_eq_getElem?_getD, List.getElem?_eq_getElem hi, Option.getD_some]
    refine List.mem_map.mpr ?_
    by_cases heq : some i = first
    · refine ⟨(i, some .There), List.mem_append_left _ ?_, hget⟩
      rw [← heq]
      exact List.mem_singleton.mpr rfl
    · refine ⟨(i, each_round (some c)), List.mem_append_right _ (List.mem_map.mpr ⟨i, ?_, rfl⟩), hget⟩
      exact List.mem_filter.mpr ⟨List.mem_range.mpr hi, decide_eq_true heq⟩

/-- Going again over the computers that came before the last one that brought files here. -/
structure Again (slugs : List String) (done : List String) (b k : ℕ) (pass : Pass) : Prop where
  going : pass.stopped = false
  out : pass.out.map Prod.fst = done
  ok : ∀ n, k ≤ n → ∀ r, pass.out[n]? = some r → ∃ step : Step, r.2 = .ok step ∧ step.error = none
  listed : ∀ s ∈ slugs, (pass.world.lists s).isSome = true
  known : ∀ s ∈ done, Known pass.world s
  settled : ∀ n, n < k ∨ b ≤ n → ∀ s, done[n]? = some s → Settled pass.world s

/-- A round of the second pass in which nothing goes wrong. -/
theorem again_round_smooth (hgoing : pass.stopped = false) (henv : env.Smooth) {n : ℕ} {c : Choice}
    {first : Step} (hout : pass.out[n]? = some (slug, .ok first))
    (hfirst : first.error = none) {l : SyncList} (hl : pass.world.lists slug = some l) :
    again_round (some c) env pass n =
      { pass with
        world := settle pass.world slug l (some .Here) (env.again n)
        out := pass.out.set n (slug, .ok (first.add
          (pulled pass.world slug l (some .Here) (env.again n)).2)) } := by
  unfold again_round
  rw [hgoing, henv.stop_again n, if_neg (by decide), hout]
  dsimp only
  rw [hfirst, if_neg (by decide), Option.map_some, round_smooth (henv.again n) hl]

theorem Again.round {b k : ℕ} (h : Again slugs done b k pass) (henv : env.Smooth)
    (hdone : ∀ s ∈ done, s ∈ slugs) (hk : k < done.length) (c : Choice) :
    Again slugs done b (k + 1) (again_round (some c) env pass k) := by
  have hlen : k < pass.out.length := by
    rw [← h.out, List.length_map] at hk
    exact hk
  obtain ⟨first, hres, hfirst⟩ := h.ok k (Nat.le_refl k) _ (List.getElem?_eq_getElem hlen)
  obtain ⟨⟨slug, res⟩, hr⟩ : ∃ r, pass.out[k] = r := ⟨_, rfl⟩
  rw [hr] at hres
  dsimp only at hres
  subst hres
  have hout : pass.out[k]? = some (slug, .ok first) := by
    rw [List.getElem?_eq_getElem hlen, hr]
  have hslug : done[k]? = some slug := by
    rw [← h.out, List.getElem?_map, hout]
    rfl
  have hmem := List.mem_of_getElem? hslug
  obtain ⟨l, hl⟩ := Option.isSome_iff_exists.mp (h.listed slug (hdone slug hmem))
  have hsmooth := henv.again k
  rw [again_round_smooth h.going henv hout hfirst hl]
  -- the round settles its own computer anew
  have hsettled := @settle_settled pass.world slug l (env.again k) hsmooth .Here
  have hhere := settle_here_of_known hsmooth hl (h.known slug hmem)
  constructor
  · exact h.going
  · dsimp only
    rw [List.map_set, h.out]
    obtain ⟨_, hget⟩ := List.getElem?_eq_some_iff.mp hslug
    dsimp only
    rw [← hget]
    exact List.set_getElem_self hk
  · intro n hn r hr
    dsimp only at hr
    rw [List.getElem?_set_ne (by omega)] at hr
    exact h.ok n (by omega) r hr
  · exact fun s hs => listed_settle (h.listed s hs)
  · intro s hs
    by_cases heq : s = slug
    · rw [heq]
      exact hsettled.known
    · exact (h.known s hs).settle hsmooth heq
  · intro n hn s hs
    by_cases heq : s = slug
    · rw [heq]
      exact hsettled
    -- the others stay settled, since it brings nothing here
    · refine (h.settled n ?_ s hs).settle heq hhere
      rcases hn with hn | hn
      · rcases Nat.lt_succ_iff_lt_or_eq.mp hn with hn | rfl
        · exact .inl hn
        · exact absurd (Option.some.inj (hs.symm.trans hslug)) heq
      · exact .inr hn

/-- Afterwards every computer is settled. -/
theorem bring_all_settled {w : World} (henv : env.Smooth)
    (hlists : ∀ s ∈ slugs, (w.lists s).isSome = true) (c : Choice) :
    ∀ s ∈ slugs, Settled (bring_all_in_step w slugs (some c) env).1 s := by
  obtain ⟨hnext, hcover⟩ := order_spec slugs c
  have hstart : Passed slugs [] ⟨w, [], none, false⟩ :=
    ⟨rfl, rfl, (fun r hr => nomatch hr), hlists, (fun s hs => nomatch hs), (fun b hb => nomatch hb),
      fun n _ s hs => nomatch hs⟩
  have hpassed := hstart.first_pass henv hnext
  rw [List.nil_append, List.length_nil] at hpassed
  set done := named slugs (order slugs (some c))
  set pass := first_pass slugs env ⟨w, [], none, false⟩ 0 (order slugs (some c)) with hpass
  have hdone : ∀ s ∈ done, s ∈ slugs := by
    intro s hs
    obtain ⟨n, hn, rfl⟩ := List.mem_map.mp hs
    rw [List.getD_eq_getElem?_getD, List.getElem?_eq_getElem (hnext n hn).1, Option.getD_some]
    exact List.getElem_mem _
  have hb : pass.brought_here.getD 0 ≤ done.length := by
    cases hbrought : pass.brought_here with
    | none => exact Nat.zero_le _
    | some b => exact (hpassed.brought b hbrought).le
  -- the passes that follow settle those before the last that brought a file
  have hagain : ∀ k, k ≤ pass.brought_here.getD 0 → Again slugs done (pass.brought_here.getD 0) k
      ((List.range k).foldl (again_round (some c) env) pass) := by
    intro k
    induction k with
    | zero =>
      intro _
      refine ⟨hpassed.going, hpassed.out, fun n _ r hr => hpassed.ok r (List.mem_of_getElem? hr),
        hpassed.listed, hpassed.known, fun n hn => hpassed.settled n ?_⟩
      omega
    | succ k ih =>
      intro hk
      rw [List.range_succ, List.foldl_append]
      exact (ih (by omega)).round henv hdone (by omega) c
  intro s hs
  have hend := hagain _ (Nat.le_refl _)
  have hworld : (bring_all_in_step w slugs (some c) env).1 =
      ((List.range (pass.brought_here.getD 0)).foldl (again_round (some c) env) pass).world := by
    unfold bring_all_in_step
    dsimp only
    rw [← hpass, if_neg (by rw [hpassed.going]; decide)]
  obtain ⟨n, hn, hget⟩ := List.getElem_of_mem (hcover s hs)
  rw [hworld]
  exact hend.settled n (Nat.lt_or_ge _ _) s (by rw [List.getElem?_eq_getElem hn, hget])

end

/-! ## The plan, its mirror image, and the end -/

/-- A conflict is two versions that differ, neither of them agreed on, and no word. -/
theorem mem_conflicts_iff {here there : List FileRec} {last : String → Option String}
    {prefer : Option Prefer} {p : String} : p ∈ (plan here there last prefer).conflicts ↔ prefer = none ∧
      ∃ a b, by_path here p = some a ∧ by_path there p = some b ∧ a.digest ≠ b.digest ∧
        last p ≠ some a.digest ∧ last p ≠ some b.digest := by
  rw [mem_conflicts, verdict_at, verdict_conflict_iff]
  constructor
  · rintro ⟨a, b, ha, hb, hdigest, hkeep⟩
    obtain ⟨hprefer, hla, hlb⟩ := keep_here_none_iff.mp hkeep
    exact ⟨hprefer, a, b, ha, hb, hdigest, hla, hlb⟩
  · rintro ⟨hprefer, a, b, ha, hb, hdigest, hla, hlb⟩
    exact ⟨a, b, ha, hb, hdigest, keep_here_none_iff.mpr ⟨hprefer, hla, hlb⟩⟩

theorem mem_push_of_keep {here there : List FileRec} {last : String → Option String}
    {prefer : Option Prefer} {p : String} {a b : FileRec} (ha : by_path here p = some a)
    (hb : by_path there p = some b) (hdigest : a.digest ≠ b.digest)
    (hkeep : keep_here prefer (last p) a b = some true) : a ∈ (plan here there last prefer).push := by
  rw [mem_push, by_path_path ha, verdict_at, ha, hb, verdict, if_neg hdigest, hkeep]

/-- Nothing is replaced unseen, both ends keep the same versions but for ties, and after a sync
with the user's word every computer is settled with this Mac. -/
theorem ignored_in_step :
    (∀ (here there : List FileRec) (last : String → Option String) (prefer : Option Prefer),
      (∀ f ∈ (plan here there last prefer).push, ∀ b, by_path there f.path = some b →
        last f.path = some b.digest ∨ prefer = some .Here ∨
          prefer = some .Newest ∧ b.mtime ≤ f.mtime) ∧
      (∀ f ∈ (plan here there last prefer).pull, ∀ a, by_path here f.path = some a →
        last f.path = some a.digest ∨ prefer = some .There ∨
          prefer = some .Newest ∧ a.mtime < f.mtime) ∧
      ∀ p, p ∈ (plan here there last prefer).conflicts ↔ prefer = none ∧
        ∃ a b, by_path here p = some a ∧ by_path there p = some b ∧ a.digest ≠ b.digest ∧
          last p ≠ some a.digest ∧ last p ≠ some b.digest) ∧
    (∀ (here there : List FileRec) (last : String → Option String) (prefer : Option Prefer) (p : String),
      ((∀ a b, by_path here p = some a → by_path there p = some b → ¬Tie prefer (last p) a b) →
        ∀ f : FileRec, f.path = p →
          (f ∈ (plan there here last (prefer.map Prefer.mirror)).pull ↔
            f ∈ (plan here there last prefer).push) ∧
          (f ∈ (plan there here last (prefer.map Prefer.mirror)).push ↔
            f ∈ (plan here there last prefer).pull)) ∧
      ∀ a b, by_path here p = some a → by_path there p = some b → a.digest ≠ b.digest →
        Tie prefer (last p) a b → a ∈ (plan here there last prefer).push ∧
          b ∈ (plan there here last (prefer.map Prefer.mirror)).push) ∧
    ∀ (w : World) (slugs : List String) (choice : Choice) (env : Env), env.Smooth →
      (∀ s ∈ slugs, (w.lists s).isSome = true) →
      ∀ s ∈ slugs, Settled (bring_all_in_step w slugs (some choice) env).1 s := by
  refine ⟨fun here there last prefer => ⟨fun f hf b hb => ?_, fun f hf a ha => ?_, fun p => mem_conflicts_iff⟩,
    fun here there last prefer p => ⟨?_, fun a b ha hb hdigest htie => ?_⟩,
    fun _ _ choice _ henv hlists => bring_all_settled henv hlists choice⟩
  · exact keep_here_true ((verdict_push (mem_push.mp hf)).2 b hb).2
  · exact keep_here_false ((verdict_pull (mem_pull.mp hf)).2.2 a ha).2
  · rintro htie f rfl
    rw [mem_pull, mem_push, mem_push, mem_pull, verdict_at, verdict_at, verdict_mirror htie]
    cases verdict prefer (last f.path) (by_path here f.path) (by_path there f.path) <;>
      simp [Verdict.mirror]
  -- a tie is one for the peer too
  · refine ⟨mem_push_of_keep ha hb hdigest (keep_here_tie htie), mem_push_of_keep hb ha (Ne.symm hdigest) ?_⟩
    obtain ⟨rfl, hla, hlb, hmtime⟩ := htie
    exact keep_here_tie ⟨rfl, hlb, hla, hmtime.symm⟩

/-! ## A tie, and a deleted file -/

def env_file (digest : String) : FileRec :=
  { path := ".env", size := 1, mtime := 100, digest := digest, exec := false, link := none }

/-- A copy that went well. -/
def well : Copied :=
  { batch := "", bytes := 0, added := 0, replaced := 0, error := none, landed := 0, counted := 0,
    mtime := FileRec.mtime, exec := FileRec.exec }

def all_well : Env :=
  { first := fun _ => ⟨none, none, well, well⟩
    again := fun _ => ⟨none, none, well, well⟩
    stop_first := fun _ => false
    stop_again := fun _ => false }

theorem all_well_smooth : all_well.Smooth :=
  ⟨fun _ => ⟨rfl, rfl, rfl, rfl⟩, fun _ => ⟨rfl, rfl, rfl, rfl⟩, fun _ => rfl, fun _ => rfl⟩

def env_list : SyncList :=
  { remote_root := "/home/dev/web", paths := [".env"], keep := true,
    last := fun p => if p = ".env" then some "g" else none, conflicts := [], error := none }

/-- The other computer has deleted the file since the two agreed on it. -/
def deleted_there : World where
  here := ⟨[env_file "g"], by decide⟩
  there _ := ⟨[], by decide⟩
  lists _ := some env_list

/-- The round brings nothing here, so there is no other. -/
theorem deleted_there_world : (bring_all_in_step deleted_there ["mini"] (some .Newest) all_well).1 =
    settle deleted_there "mini" env_list (some .Newest) (all_well.first 0) := by
  have hpull : (plan_of deleted_there "mini" env_list (some .Newest)).pull = [] := by
    refine List.eq_nil_iff_forall_not_mem.mpr fun f hf => ?_
    cases (verdict_pull (mem_pull.mp hf)).1
  have hreceived := (@pulled_file deleted_there "mini" env_list (some .Newest) _
    (all_well_smooth.first 0)).2.2.2.2
  rw [hpull, List.length_nil] at hreceived
  have hround : first_round ["mini"] all_well ⟨deleted_there, [], none, false⟩ 0 (0, some .Newest) = _ :=
    first_round_smooth rfl all_well_smooth (show ["mini"].getD 0 "" = "mini" from rfl) rfl
  have horder : order ["mini"] (some .Newest) = [(0, some .Newest)] := rfl
  rw [bring_all_in_step, horder, first_pass, first_pass, hround]
  dsimp only
  rw [hreceived]
  rfl

/-- In a tie the two plans keep a version each; and a file deleted there stays so. -/
theorem tie_and_deletion_differ :
    (env_file "mine" ∈ (plan [env_file "mine"] [env_file "theirs"] (fun _ => none) (some .Newest)).push ∧
      env_file "theirs" ∈
        (plan [env_file "theirs"] [env_file "mine"] (fun _ => none) (some .Newest)).push) ∧
    (bring_all_in_step deleted_there ["mini"] (some .Newest) all_well).1.here.file ".env" =
      some (env_file "g") ∧
    ((bring_all_in_step deleted_there ["mini"] (some .Newest) all_well).1.there "mini").file ".env" =
      none := by
  have hp : within env_list.paths ".env" = true := by decide
  rw [deleted_there_world, settle_here (all_well_smooth.first 0) hp,
    settle_there (all_well_smooth.first 0) hp]
  exact ⟨⟨mem_push.mpr rfl, mem_push.mpr rfl⟩, rfl, rfl⟩

def key_file : FileRec :=
  { path := "keys/dev.pem", size := 2, mtime := 150, digest := "k", exec := false, link := none }

def both_list : SyncList := { env_list with paths := [".env", "keys"] }

/-- One computer has a newer `.env`, and another one keys that nobody else has. -/
def spread : World where
  here := ⟨[env_file "mine"], by decide⟩
  there slug := if slug = "mini" then ⟨[{ env_file "theirs" with mtime := 200 }], by decide⟩
    else ⟨[env_file "mine", key_file], by decide⟩
  lists _ := some both_list

theorem ignored_in_step_spread : ∀ slug ∈ ["mini", "studio"],
    Settled (bring_all_in_step spread ["mini", "studio"] (some .Newest) all_well).1 slug :=
  ignored_in_step.2.2 spread ["mini", "studio"] .Newest all_well all_well_smooth fun _ _ => rfl

end Lpm.Ignored
