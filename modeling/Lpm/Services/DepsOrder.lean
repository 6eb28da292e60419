/-
What `expand_service_deps` promises of a start, and what it keeps of the order asked for.

A requested service that depends on no other requested one keeps its place among those only
where nothing requested before it pulls another of them forward: the walk puts out whatever it
meets first, and it goes down a service's dependencies before the next requested one.
-/
import Lpm.Services.Deps

set_option autoImplicit false

namespace Lpm.Services

open List

open DepthFirst

/-- In the list, `x` first comes before `y` does. -/
def Before (l : List String) (x y : String) : Prop := l.idxOf x < l.idxOf y

section
variable {l l' : List String} {x y : String}

theorem before_append (hx : x ∈ l) (hy : y ∈ l) : Before (l ++ l') x y ↔ Before l x y := by
  rw [Before, Before, idxOf_append_of_mem hx, idxOf_append_of_mem hy]

theorem before_of_not_mem (hx : x ∈ l) (hy : y ∉ l) : Before (l ++ l') x y := by
  have hlt := idxOf_lt_length_iff.mpr hx
  rw [Before, idxOf_append_of_mem hx, idxOf_append_of_notMem hy]
  omega

theorem Before.asymm (h : Before l x y) : ¬Before l y x := Nat.lt_asymm h

end

section
variable {services : Items ServiceFull} {requested : List String}

/-- A requested service that depends on no other requested one. -/
def Independent (services : Items ServiceFull) (requested : List String) (x : String) : Prop :=
  x ∈ requested ∧ ∀ z ∈ requested, z ≠ x → ¬Leads (depends services) x z

/-- What an expansion should come to. -/
structure Expands (services : Items ServiceFull) (requested : List String)
    (result : Except ExpandError (List String)) : Prop where
  succeeds : (∃ out, result = .ok out) ↔ Startable services requested
  each_once : ∀ out, result = .ok out → out.Nodup
    ∧ ∀ s, s ∈ out ↔ ∃ r ∈ requested, Leads (depends services) r s
  after_deps : ∀ out, result = .ok out →
    ∀ s ∈ out, ∀ dep ∈ depends services s, dep ∈ out ∧ Before out dep s
  in_order : ∀ out, result = .ok out → ∀ x y, Independent services requested x →
    Independent services requested y → Before requested x y → Before out x y
  told : ∀ e, result = .error e → ∃ r ∈ requested, Told services r e
  again : ∀ out, result = .ok out → expand_service_deps services out = .ok out

/-- Where services can be started, the independent ones are met in the order asked for. -/
def Met_in_order (services : Items ServiceFull) (requested : List String) : Prop :=
  Startable services requested → ∀ x y, Independent services requested x →
    Independent services requested y → Before requested x y →
      Sooner (depends services) x y requested

/-! ## The order of a walk -/

variable {stack names : List String} {w w' : Walk} {name x y : String}

/-- Of two services that do not lead to each other, a loop over some names puts out first the
one that is met sooner, where each name it walks puts out first the one met sooner below it. -/
theorem before_iff_sooner {f : Walk → String → Except ExpandError Walk}
    (hwalk : ∀ name ∈ names, ∀ w w', w.Inv services → f w name = .ok w' →
      Walked services stack [name] w w')
    (hbelow : ∀ name ∈ names, ∀ w w', w.Inv services → f w name = .ok w' → x ∉ w.out → y ∉ w.out →
      Leads (depends services) name x → Leads (depends services) name y →
        (Before w'.out x y ↔ Sooner (depends services) x y (depends services name)))
    (hinv : w.Inv services) (h : names.foldlM f w = .ok w') (hx : x ∉ w.out) (hy : y ∉ w.out)
    (hx' : x ∈ w'.out) : Before w'.out x y ↔ Sooner (depends services) x y names := by
  induction names generalizing w with
  | nil =>
    obtain rfl := Except.ok.inj h
    exact absurd hx' hx
  | cons name names ih =>
    rw [foldlM_cons] at h
    obtain ⟨middle, hfirst, hrest⟩ := Fallible.bind_ok h
    have hname := hwalk name mem_cons_self w middle hinv hfirst
    have hlater := walked_all (fun n hn => hwalk n (mem_cons_of_mem _ hn)) hname.inv hrest
    obtain ⟨added, hout, -⟩ := hlater.added
    -- what `name` leads to is out behind it, and of what it does not nothing is
    have hmem : ∀ z, z ∉ w.out → (z ∈ middle.out ↔ Leads (depends services) name z) := by
      intro z hz
      constructor
      · intro hin
        obtain ⟨-, r, hr, hlead⟩ := hname.leads hin hz
        rw [mem_singleton.mp hr] at hlead
        exact hlead
      · intro hlead
        exact hname.inv.ordered.mem_of_leads (hname.covers name mem_cons_self) hlead
    rw [sooner_cons_iff]
    by_cases hleadx : Leads (depends services) name x
    · have hinx := (hmem x hx).mpr hleadx
      by_cases hleady : Leads (depends services) name y
      · have hiny := (hmem y hy).mpr hleady
        rw [hout, before_append hinx hiny,
          hbelow name mem_cons_self w middle hinv hfirst hx hy hleadx hleady]
        simp [hleadx, hleady]
      · have houty : y ∉ middle.out := fun hin => hleady ((hmem y hy).mp hin)
        rw [hout]
        simp [hleadx, hleady, before_of_not_mem hinx houty]
    · have houtx : x ∉ middle.out := fun hin => hleadx ((hmem x hx).mp hin)
      by_cases hleady : Leads (depends services) name y
      · have hiny := (hmem y hy).mpr hleady
        have hbehind : ¬Before w'.out x y := by
          rw [hout]
          exact (before_of_not_mem hiny houtx).asymm
        simp [hleadx, hleady, hbehind]
      · have houty : y ∉ middle.out := fun hin => hleady ((hmem y hy).mp hin)
        rw [ih (fun n hn => hwalk n (mem_cons_of_mem _ hn))
          (fun n hn => hbelow n (mem_cons_of_mem _ hn)) hname.inv hrest houtx houty]
        simp [hleadx, hleady]

theorem visit_before_iff (hxy : ¬Leads (depends services) x y) (hyx : ¬Leads (depends services) y x)
    (hinv : w.Inv services) (h : visit services stack w name = .ok w') (hx : x ∉ w.out)
    (hy : y ∉ w.out) (hleadx : Leads (depends services) name x)
    (hleady : Leads (depends services) name y) :
    Before w'.out x y ↔ Sooner (depends services) x y (depends services name) := by
  induction stack, w, name using visit.induct services generalizing w' with
  | case1 stack w name hdone =>
    exact absurd (hinv.ordered.mem_of_leads ((hinv.done name).mp hdone) hleadx) hx
  | case2 stack w name hnew hstack =>
    rcases visit_ok h with ⟨hdone, -⟩ | ⟨_, hfree, -⟩
    · exact absurd hdone hnew
    · exact absurd hstack hfree
  | case3 stack w name hnew hstack hnone =>
    rcases visit_ok h with ⟨hdone, -⟩ | ⟨_, _, svc, _, hget, -⟩
    · exact absurd hdone hnew
    · rw [hnone] at hget
      cases hget
  | case4 stack w name hnew hstack svc hget ih =>
    rcases visit_ok h with ⟨hdone, -⟩ | ⟨_, _, svc, before, hget, hdeps, rfl⟩
    · exact absurd hdone hnew
    have hwalk := fun dep (_ : dep ∈ svc.depends_on) w w' hinv h =>
      @visit_walked services (stack ++ [name]) w w' dep hinv h
    have hbefore := walked_all hwalk hinv hdeps
    -- neither is the service itself, so both are out before it
    have hbelow : ∀ z, Leads (depends services) name z → name ≠ z → z ∈ before.out := by
      intro z hlead hne
      obtain ⟨dep, hdep, hlead⟩ := (leads_iff.mp hlead).resolve_left hne
      rw [depends_eq hget] at hdep
      exact hbefore.inv.ordered.mem_of_leads (hbefore.covers dep hdep) hlead
    have hinx := hbelow x hleadx fun heq => hxy (heq ▸ hleady)
    have hiny := hbelow y hleady fun heq => hyx (heq ▸ hleadx)
    dsimp only
    rw [before_append hinx hiny, depends_eq hget]
    exact before_iff_sooner hwalk (fun dep _ w w' hinv h hx hy => ih w dep hinv h hx hy) hinv hdeps
      hx hy hinx

/-! ## What an expansion comes to -/

variable {out : List String} {e : ExpandError}

theorem expand_ok (h : expand_service_deps services requested = .ok out) :
    ∃ w, requested.foldlM (visit services []) { done := [], out := [] } = .ok w ∧ w.out = out := by
  obtain ⟨w, hwalk, hpure⟩ := Fallible.bind_ok h
  exact ⟨w, hwalk, Except.ok.inj hpure⟩

/-- What is out is reached from a requested service, and the other way about. -/
theorem mem_out_iff (h : expand_service_deps services requested = .ok out) (s : String) :
    s ∈ out ↔ ∃ r ∈ requested, Leads (depends services) r s := by
  obtain ⟨w, hwalk, rfl⟩ := expand_ok h
  have hwalked := walked_requested hwalk
  constructor
  · intro hs
    exact (hwalked.leads hs not_mem_nil).2
  · rintro ⟨r, hr, hlead⟩
    exact hwalked.inv.ordered.mem_of_leads (hwalked.covers r hr) hlead

theorem expand_inv (h : expand_service_deps services requested = .ok out) :
    out.Nodup ∧ Ordered (depends services) out ∧ ∀ s ∈ out, services.has s = true := by
  obtain ⟨w, hwalk, rfl⟩ := expand_ok h
  have hinv := (walked_requested hwalk).inv
  exact ⟨hinv.nodup, hinv.ordered, hinv.defined⟩

theorem startable_of_ok (h : expand_service_deps services requested = .ok out) :
    Startable services requested := by
  intro r hr name hlead
  obtain ⟨-, hordered, hdefined⟩ := expand_inv h
  have hname := (mem_out_iff h name).mpr ⟨r, hr, hlead⟩
  exact ⟨hdefined name hname, hordered.not_past hname⟩

theorem expand_told (h : expand_service_deps services requested = .error e) :
    ∃ r ∈ requested, Told services r e := by
  rcases Fallible.bind_error h with hwalk | ⟨_, _, hpure⟩
  · obtain ⟨front, r, back, before, rfl, hfront, hvisit⟩ := Fallible.foldlM_error hwalk
    have hbefore := walked_requested hfront
    refine ⟨r, mem_append_right _ mem_cons_self, ?_⟩
    refine visit_error ⟨isChain_singleton r, fun s hs => ?_⟩ hbefore.inv hvisit
    rw [mem_singleton.mp hs]
    exact Leads.refl r
  · exact nomatch hpure

/-- A chain that ends where it begins leads back to it. -/
theorem past_of_chain {a b : String} {middle : List String}
    (h : (a :: middle ++ [b]).IsChain fun name dep => dep ∈ depends services name) :
    Past (depends services) a b := by
  induction middle generalizing a with
  | nil =>
    rw [cons_append, nil_append, isChain_cons_cons] at h
    exact Past.of_step h.1 (Leads.refl b)
  | cons c middle ih =>
    rw [cons_append, cons_append, isChain_cons_cons] at h
    exact Past.of_step h.1 (ih h.2).to_reflTransGen

theorem not_startable_of_told {r : String} (hr : r ∈ requested) (h : Told services r e) :
    ¬Startable services requested := by
  intro hstartable
  cases e with
  | cycle names =>
    obtain ⟨s, middle, rfl, hchain, hlead⟩ := h
    exact (hstartable r hr s hlead).2 (past_of_chain hchain)
  | not_found name =>
    obtain ⟨hlead, hhas⟩ := h
    rw [(hstartable r hr name hlead).1] at hhas
    exact nomatch hhas
  | unknown name dep =>
    obtain ⟨hlead, hdep, hhas⟩ := h
    rw [(hstartable r hr dep (hlead.trans (Leads.step hdep))).1] at hhas
    exact nomatch hhas

/-- What is in order already is walked as it stands. -/
theorem walk_ordered (hnodup : out.Nodup) (hordered : Ordered (depends services) out)
    (hdefined : ∀ s ∈ out, services.has s = true) :
    ∃ w, out.foldlM (visit services []) { done := [], out := [] } = .ok w ∧ w.out = out := by
  induction out using List.reverseRecOn with
  | nil => exact ⟨_, rfl, rfl⟩
  | append_singleton out s ih =>
    obtain ⟨w, hwalk, rfl⟩ := ih hnodup.of_append_left hordered.of_append
      fun s hs => hdefined s (mem_append_left _ hs)
    have hinv := (walked_requested hwalk).inv
    have hnew : s ∉ w.done := by
      rw [hinv.done]
      intro hin
      exact disjoint_of_nodup_append hnodup hin mem_cons_self
    obtain ⟨svc, hget⟩ := Option.isSome_iff_exists.mp
      (hdefined s (mem_append_right _ mem_cons_self))
    -- what it depends on stands before it, and is walked
    have hdone : ∀ dep ∈ svc.depends_on, dep ∈ w.done := by
      intro dep hdep
      rw [← depends_eq hget] at hdep
      rw [hinv.done]
      exact hordered w.out s [] rfl dep hdep
    have hdeps : ∀ deps : List String, (∀ dep ∈ deps, dep ∈ w.done) → deps.foldlM
        (fun w dep => if services.has dep then visit services ([] ++ [s]) w dep
          else .error (.unknown s dep)) w = .ok w := by
      intro deps hdeps
      induction deps with
      | nil => rfl
      | cons dep deps ih =>
        have hin := hdeps dep mem_cons_self
        have hhas := hinv.defined dep ((hinv.done dep).mp hin)
        have hrest := ih fun d hd => hdeps d (mem_cons_of_mem _ hd)
        rw [foldlM_cons, if_pos hhas, visit, if_pos hin]
        exact hrest
    refine ⟨{ done := s :: w.done, out := w.out ++ [s] }, ?_, rfl⟩
    rw [foldlM_append, hwalk]
    have hvisit : visit services [] w s = .ok { done := s :: w.done, out := w.out ++ [s] } := by
      rw [visit, if_neg hnew, dif_neg not_mem_nil]
      split
      next hnone =>
        rw [hget] at hnone
        exact nomatch hnone
      next svc' hget' =>
        rw [hget] at hget'
        rw [← Option.some.inj hget', hdeps svc.depends_on hdone]
        rfl
    exact congrArg (· >>= pure) hvisit

theorem expand_again (h : expand_service_deps services requested = .ok out) :
    expand_service_deps services out = .ok out := by
  obtain ⟨hnodup, hordered, hdefined⟩ := expand_inv h
  obtain ⟨w, hwalk, hout⟩ := walk_ordered hnodup hordered hdefined
  rw [expand_service_deps, hwalk]
  exact congrArg Except.ok hout

/-- Independent services come out in the order they are met in. -/
theorem before_out_iff (h : expand_service_deps services requested = .ok out)
    (hx : Independent services requested x) (hy : Independent services requested y) (hne : x ≠ y) :
    Before out x y ↔ Sooner (depends services) x y requested := by
  obtain ⟨w, hwalk, rfl⟩ := expand_ok h
  have hwalked := walked_requested hwalk
  have hxy := hx.2 y hy.1 hne.symm
  have hyx := hy.2 x hx.1 hne
  refine before_iff_sooner (fun name _ w w' hinv h => @visit_walked services [] w w' name hinv h)
    (fun name _ w w' hinv h hx hy hleadx hleady =>
      visit_before_iff hxy hyx hinv h hx hy hleadx hleady)
    Walk.inv_empty hwalk not_mem_nil not_mem_nil
    (hwalked.covers x hx.1)

/-- An expansion is what it should be exactly where the independent services are met in the
order asked for. -/
theorem expands_iff : Expands services requested (expand_service_deps services requested)
    ↔ Met_in_order services requested := by
  have hne : ∀ {x y}, Before requested x y → x ≠ y := by
    rintro x _ hbefore rfl
    exact Nat.lt_irrefl _ hbefore
  constructor
  · intro h hstartable x y hx hy hbefore
    obtain ⟨out, hout⟩ := h.succeeds.mpr hstartable
    exact (before_out_iff hout hx hy (hne hbefore)).mp (h.in_order out hout x y hx hy hbefore)
  · intro h
    refine ⟨⟨?_, ?_⟩, ?_, ?_, ?_, fun e he => expand_told he, fun out hout => expand_again hout⟩
    · rintro ⟨out, hout⟩
      exact startable_of_ok hout
    · intro hstartable
      cases hresult : expand_service_deps services requested with
      | ok out => exact ⟨out, rfl⟩
      | error e =>
        obtain ⟨r, hr, htold⟩ := expand_told hresult
        exact absurd hstartable (not_startable_of_told hr htold)
    · intro out hout
      exact ⟨(expand_inv hout).1, mem_out_iff hout⟩
    · intro out hout s hs dep hdep
      have hordered := (expand_inv hout).2.1
      exact ⟨hordered.mem_of_next hs hdep, hordered.idxOf_lt hs hdep⟩
    · intro out hout x y hx hy hbefore
      exact (before_out_iff hout hx hy (hne hbefore)).mpr
        (h (startable_of_ok hout) x y hx hy hbefore)

end

/-! ## A request that is pulled forward

The first of three requested services depends on the last. -/

def pulled_forward : Items ServiceFull := [("api", ⟨["db"]⟩), ("db", ⟨[]⟩), ("web", ⟨[]⟩)]

theorem pulled_forward_not_in_order : ¬Expands pulled_forward ["api", "web", "db"]
    (expand_service_deps pulled_forward ["api", "web", "db"]) := by
  intro h
  have hout : expand_service_deps pulled_forward ["api", "web", "db"] = .ok ["db", "api", "web"] := by
    decide +kernel
  have hnone : ∀ name, depends pulled_forward name = [] →
      ∀ z, Leads (depends pulled_forward) name z → name = z := by
    intro name hdepends z hlead
    rcases leads_iff.mp hlead with heq | ⟨dep, hdep, -⟩
    · exact heq
    · rw [hdepends] at hdep
      exact absurd hdep not_mem_nil
  have hweb : Independent pulled_forward ["api", "web", "db"] "web" :=
    ⟨by decide, fun z _ hz hlead => hz (hnone "web" (by decide +kernel) z hlead).symm⟩
  have hdb : Independent pulled_forward ["api", "web", "db"] "db" :=
    ⟨by decide, fun z _ hz hlead => hz (hnone "db" (by decide +kernel) z hlead).symm⟩
  have hbefore : Before ["api", "web", "db"] "web" "db" := show _ < _ by decide
  have hbehind : ¬Before ["db", "api", "web"] "web" "db" := show ¬_ < _ by decide
  exact hbehind (h.in_order _ hout "web" "db" hweb hdb hbefore)

end Lpm.Services
