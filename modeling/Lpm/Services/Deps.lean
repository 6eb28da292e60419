/-
The services a start comes to, `expand_service_deps` of `config.rs`: the requested ones with
everything they depend on, what a service depends on before it.

It is a walk that goes down each service's `dependsOn` before it puts the service out. What is
being walked is the stack; a service met on it again closes a cycle, and one that is out is not
walked again. The stack has each service once, so the walk ends.
-/
import Lpm.Lib.DepthFirst
import Lpm.Lib.Fallible
import Lpm.Lib.Items
import Lpm.Lib.Worklist
import Mathlib.Data.List.Chain
import Mathlib.Data.List.Nodup

set_option autoImplicit false

namespace Lpm.Services

open List

open DepthFirst

structure ServiceFull where
  depends_on : List String

inductive ExpandError where
  | cycle (names : List String)
  | not_found (name : String)
  | unknown (name dep : String)
  deriving DecidableEq

/-- The text of an error, where `debug` is how a name is quoted. -/
def ExpandError.text (debug : String → String) : ExpandError → String
  | .cycle names => "service dependency cycle: " ++ " -> ".intercalate names
  | .not_found name => "service " ++ debug name ++ " not found"
  | .unknown name dep => "service " ++ debug name ++ " depends on unknown service " ++ debug dep

/-- The services walked, and all that is put out. -/
structure Walk where
  done : List String
  out : List String
  deriving DecidableEq

section
variable (services : Items ServiceFull)

/-- How many services are not on the stack. -/
def unstacked (stack : List String) : ℕ := Worklist.unseen services.keys stack

variable {services} in
theorem unstacked_lt {stack : List String} {name : String} {svc : ServiceFull}
    (hget : services.get name = some svc) (hstack : name ∉ stack) :
    unstacked services (stack ++ [name]) < unstacked services stack := by
  have hkey : name ∈ services.keys := by
    by_contra hkey
    rw [Items.get_eq_none.mpr hkey] at hget
    exact nomatch hget
  have hcons := Worklist.unseen_cons_lt services.keys stack name hkey hstack
  have hsame : unstacked services (stack ++ [name]) = Worklist.unseen services.keys (name :: stack) := by
    rw [unstacked, Worklist.unseen, Worklist.unseen]
    congr 1
    refine filter_congr fun y _ => ?_
    simp [or_comm]
  rw [hsame]
  exact hcons

def visit (stack : List String) (w : Walk) (name : String) : Except ExpandError Walk :=
  if name ∈ w.done then .ok w
  else if _hstack : name ∈ stack then
    .error (.cycle (stack.drop (stack.idxOf name) ++ [name]))
  else
    match _hget : services.get name with
    | none => .error (.not_found name)
    | some svc => do
      let w ← svc.depends_on.foldlM
        (fun w dep =>
          if services.has dep then visit (stack ++ [name]) w dep else .error (.unknown name dep)) w
      return { done := name :: w.done, out := w.out ++ [name] }
termination_by unstacked services stack
decreasing_by exact unstacked_lt _hget _hstack

variable (requested : List String)

def expand_service_deps : Except ExpandError (List String) := do
  let w ← requested.foldlM (visit services []) { done := [], out := [] }
  return w.out

/-- What a service names in its `dependsOn`. -/
def depends (name : String) : List String := ((services.get name).map ServiceFull.depends_on).getD []

/-- Every service that a start would reach is defined, and none leads back to itself. -/
def Startable : Prop := ∀ r ∈ requested, ∀ name,
  Leads (depends services) r name → services.has name = true ∧ ¬Past (depends services) name name

end

example : expand_service_deps [("db", ⟨[]⟩), ("api", ⟨["db"]⟩), ("web", ⟨["api"]⟩)] ["web"]
    = .ok ["db", "api", "web"] := by decide +kernel

/-! ## What a walk has put out -/

section
variable {services : Items ServiceFull}

/-- What is out is defined, is out once, and stands behind all it depends on. -/
structure Walk.Inv (services : Items ServiceFull) (w : Walk) : Prop where
  done : ∀ s, s ∈ w.done ↔ s ∈ w.out
  nodup : w.out.Nodup
  ordered : Ordered (depends services) w.out
  defined : ∀ s ∈ w.out, services.has s = true

/-- A walk that went on from some names has put them out, and nothing else but what they lead
to; none of it is on the stack. -/
structure Walked (services : Items ServiceFull) (stack names : List String) (w w' : Walk) : Prop where
  inv : w'.Inv services
  added : ∃ added, w'.out = w.out ++ added
    ∧ ∀ s ∈ added, s ∉ stack ∧ ∃ r ∈ names, Leads (depends services) r s
  covers : ∀ r ∈ names, r ∈ w'.out

section
variable {stack names : List String} {w w' w'' : Walk} {name s : String}

theorem Walk.inv_empty : Walk.Inv services { done := [], out := [] } :=
  ⟨fun _ => Iff.rfl, nodup_nil, ordered_nil, nofun⟩

theorem depends_eq {svc : ServiceFull} (hget : services.get name = some svc) :
    depends services name = svc.depends_on := by
  rw [depends, hget]
  rfl

theorem Walked.mem_of_mem (h : Walked services stack names w w') (hs : s ∈ w.out) : s ∈ w'.out := by
  obtain ⟨added, hout, -⟩ := h.added
  rw [hout]
  exact mem_append_left _ hs

theorem Walked.leads (h : Walked services stack names w w') (hs : s ∈ w'.out) (hnew : s ∉ w.out) :
    s ∉ stack ∧ ∃ r ∈ names, Leads (depends services) r s := by
  obtain ⟨added, hout, hadded⟩ := h.added
  rw [hout] at hs
  exact hadded s ((mem_append.mp hs).resolve_left hnew)

theorem Walked.cons (h : Walked services stack [name] w w') (h' : Walked services stack names w' w'') :
    Walked services stack (name :: names) w w'' := by
  obtain ⟨added, hout, hadded⟩ := h.added
  obtain ⟨added', hout', hadded'⟩ := h'.added
  refine ⟨h'.inv, ⟨added ++ added', by rw [hout', hout, append_assoc], ?_⟩, ?_⟩
  · intro s hs
    rcases mem_append.mp hs with hs | hs
    · obtain ⟨hstack, r, hr, hlead⟩ := hadded s hs
      rw [mem_singleton.mp hr] at hlead
      exact ⟨hstack, name, mem_cons_self, hlead⟩
    · obtain ⟨hstack, r, hr, hlead⟩ := hadded' s hs
      exact ⟨hstack, r, mem_cons_of_mem _ hr, hlead⟩
  · intro r hr
    rcases mem_cons.mp hr with rfl | hr
    · exact h'.mem_of_mem (h.covers r mem_cons_self)
    · exact h'.covers r hr

/-- What holds of each name a loop walks holds of the loop. -/
theorem walked_all {f : Walk → String → Except ExpandError Walk}
    (hstep : ∀ name ∈ names, ∀ w w', w.Inv services → f w name = .ok w' →
      Walked services stack [name] w w')
    (hinv : w.Inv services) (h : names.foldlM f w = .ok w') : Walked services stack names w w' := by
  induction names generalizing w with
  | nil =>
    obtain rfl := Except.ok.inj h
    exact ⟨hinv, ⟨[], (append_nil _).symm, nofun⟩, nofun⟩
  | cons name names ih =>
    rw [foldlM_cons] at h
    obtain ⟨middle, hfirst, hrest⟩ := Fallible.bind_ok h
    have hname := hstep name mem_cons_self w middle hinv hfirst
    exact hname.cons (ih (fun n hn => hstep n (mem_cons_of_mem _ hn)) hname.inv hrest)

/-- A service that is not out is put out behind what it depends on. -/
theorem walked_service {svc : ServiceFull} (hget : services.get name = some svc)
    (hnew : name ∉ w.done) (hstack : name ∉ stack) (hinv : w.Inv services)
    (h : Walked services (stack ++ [name]) svc.depends_on w w') :
    Walked services stack [name] w { done := name :: w'.done, out := w'.out ++ [name] } := by
  obtain ⟨added, hout, hadded⟩ := h.added
  have hlast : name ∉ w'.out := by
    intro hin
    have hbefore : name ∉ w.out := fun hin => hnew ((hinv.done name).mpr hin)
    exact (h.leads hin hbefore).1 (mem_append_right _ mem_cons_self)
  refine ⟨⟨?_, ?_, ?_, ?_⟩, ⟨added ++ [name], ?_, ?_⟩, ?_⟩
  · intro s
    rw [mem_cons, mem_append, mem_singleton, h.inv.done, or_comm]
  · exact h.inv.nodup.append (nodup_singleton _) (disjoint_singleton.mpr hlast)
  · refine h.inv.ordered.concat fun dep hdep => ?_
    rw [depends_eq hget] at hdep
    exact h.covers dep hdep
  · intro s hs
    rcases mem_append.mp hs with hs | hs
    · exact h.inv.defined s hs
    · rw [mem_singleton.mp hs, Items.has, hget]
      rfl
  · rw [hout, append_assoc]
  · intro s hs
    rcases mem_append.mp hs with hs | hs
    · obtain ⟨hfree, dep, hdep, hlead⟩ := hadded s hs
      rw [← depends_eq hget] at hdep
      exact ⟨fun hin => hfree (mem_append_left _ hin), name, mem_cons_self,
        (Leads.step hdep).trans hlead⟩
    · rw [mem_singleton.mp hs]
      exact ⟨hstack, name, mem_cons_self, Leads.refl name⟩
  · intro r hr
    rw [mem_singleton.mp hr]
    exact mem_append_right _ mem_cons_self

/-- A visit of what is not out: its dependencies are visited from the stack with it. -/
theorem visit_ok (h : visit services stack w name = .ok w') :
    name ∈ w.done ∧ w' = w ∨ name ∉ w.done ∧ name ∉ stack ∧ ∃ svc before,
      services.get name = some svc
      ∧ svc.depends_on.foldlM (visit services (stack ++ [name])) w = .ok before
      ∧ w' = { done := name :: before.done, out := before.out ++ [name] } := by
  rw [visit] at h
  by_cases hdone : name ∈ w.done
  · rw [if_pos hdone] at h
    exact .inl ⟨hdone, (Except.ok.inj h).symm⟩
  rw [if_neg hdone] at h
  by_cases hstack : name ∈ stack
  · rw [dif_pos hstack] at h
    exact nomatch h
  rw [dif_neg hstack] at h
  split at h
  · exact nomatch h
  next svc hget =>
    obtain ⟨before, hdeps, hpure⟩ := Fallible.bind_ok h
    refine .inr ⟨hdone, hstack, svc, before, hget, ?_, (Except.ok.inj hpure).symm⟩
    refine Fallible.foldlM_ok_of_turns (fun w dep w' hdep => ?_) hdeps
    -- a dependency that is not defined is an error
    split_ifs at hdep
    exact hdep

theorem visit_walked (hinv : w.Inv services) (h : visit services stack w name = .ok w') :
    Walked services stack [name] w w' := by
  induction stack, w, name using visit.induct services generalizing w' with
  | case1 stack w name hdone =>
    rcases visit_ok h with ⟨_, rfl⟩ | ⟨hnew, -⟩
    · refine ⟨hinv, ⟨[], (append_nil _).symm, nofun⟩, fun r hr => ?_⟩
      rw [mem_singleton.mp hr]
      exact (hinv.done name).mp hdone
    · exact absurd hdone hnew
  | case2 stack w name hnew hstack =>
    rcases visit_ok h with ⟨hdone, -⟩ | ⟨_, hfree, -⟩
    · exact absurd hdone hnew
    · exact absurd hstack hfree
  | case3 stack w name hnew hstack hnone =>
    rcases visit_ok h with ⟨hdone, -⟩ | ⟨_, _, svc, _, hget, -⟩
    · exact absurd hdone hnew
    · rw [hnone] at hget
      exact nomatch hget
  | case4 stack w name hnew hstack svc hget ih =>
    rcases visit_ok h with ⟨hdone, -⟩ | ⟨_, _, svc, before, hget, hdeps, rfl⟩
    · exact absurd hdone hnew
    · exact walked_service hget hnew hstack hinv
        (walked_all (fun dep _ w w' hinv h => ih w dep hinv h) hinv hdeps)

theorem walked_requested {requested : List String}
    (h : requested.foldlM (visit services []) { done := [], out := [] } = .ok w') :
    Walked services [] requested { done := [], out := [] } w' := by
  exact walked_all (fun name _ w w' hinv h => visit_walked hinv h) Walk.inv_empty h

/-! ## What an error says -/

/-- What an error names is there, and `r` leads to it. -/
def Told (services : Items ServiceFull) (r : String) : ExpandError → Prop
  | .cycle names => ∃ s middle, names = s :: middle ++ [s]
    ∧ names.IsChain (fun name dep => dep ∈ depends services name) ∧ Leads (depends services) r s
  | .not_found name => Leads (depends services) r name ∧ services.has name = false
  | .unknown name dep => Leads (depends services) r name ∧ dep ∈ depends services name
    ∧ services.has dep = false

/-- The services on the way to one that is visited. -/
structure Way (services : Items ServiceFull) (r : String) (way : List String) : Prop where
  chain : way.IsChain fun name dep => dep ∈ depends services name
  leads : ∀ s ∈ way, Leads (depends services) r s

theorem Way.step {r dep : String} (h : Way services r (stack ++ [name]))
    (hdep : dep ∈ depends services name) : Way services r (stack ++ [name] ++ [dep]) := by
  refine ⟨?_, ?_⟩
  · refine h.chain.append (isChain_singleton dep) ?_
    intro x hx y hy
    rw [getLast?_concat, Option.mem_some_iff] at hx
    rw [head?_cons, Option.mem_some_iff] at hy
    rw [← hx, ← hy]
    exact hdep
  · intro s hs
    rcases mem_append.mp hs with hs | hs
    · exact h.leads s hs
    · rw [mem_singleton.mp hs]
      exact (h.leads name (mem_append_right _ mem_cons_self)).trans (Leads.step hdep)

theorem visit_error {r : String} {e : ExpandError} (hway : Way services r (stack ++ [name]))
    (hinv : w.Inv services) (h : visit services stack w name = .error e) : Told services r e := by
  have hlead := hway.leads name (mem_append_right _ mem_cons_self)
  induction stack, w, name using visit.induct services with
  | case1 stack w name hdone =>
    rw [visit, if_pos hdone] at h
    exact nomatch h
  | case2 stack w name hnew hstack =>
    rw [visit, if_neg hnew, dif_pos hstack] at h
    obtain rfl := Except.error.inj h
    -- the stack from where the name stands on it, and the name once more
    have hlt := idxOf_lt_length_iff.mpr hstack
    have hfrom : stack.drop (stack.idxOf name) = name :: stack.drop (stack.idxOf name + 1) := by
      rw [drop_eq_getElem_cons hlt, getElem_idxOf hlt]
    refine ⟨name, stack.drop (stack.idxOf name + 1), ?_, ?_, hlead⟩
    · rw [hfrom]
    · refine hway.chain.suffix ⟨stack.take (stack.idxOf name), ?_⟩
      rw [← append_assoc, take_append_drop]
  | case3 stack w name hnew hstack hnone =>
    rw [visit, if_neg hnew, dif_neg hstack] at h
    split at h
    · obtain rfl := Except.error.inj h
      exact ⟨hlead, Items.has_eq_false.mpr hnone⟩
    next hget =>
      rw [hnone] at hget
      exact nomatch hget
  | case4 stack w name hnew hstack svc hget ih =>
    rw [visit, if_neg hnew, dif_neg hstack] at h
    split at h
    next hnone =>
      rw [hget] at hnone
      exact nomatch hnone
    next svc hget =>
      rcases Fallible.bind_error h with hdeps | ⟨_, _, hpure⟩
      · obtain ⟨front, dep, back, before, hsplit, hfront, hdep⟩ := Fallible.foldlM_error hdeps
        have hin : dep ∈ depends services name := by
          rw [depends_eq hget, hsplit]
          exact mem_append_right _ mem_cons_self
        by_cases hhas : services.has dep = true
        · rw [if_pos hhas] at hdep
          have hbefore : Walked services (stack ++ [name]) front w before := walked_all
            (fun dep _ w w' hinv h => visit_walked hinv h) hinv
            (Fallible.foldlM_ok_of_turns (fun w dep w' h => by split_ifs at h; exact h) hfront)
          exact ih before dep (hway.step hin) hbefore.inv hdep (hlead.trans (Leads.step hin))
        · rw [if_neg hhas] at hdep
          obtain rfl := Except.error.inj hdep
          exact ⟨hlead, hin, Bool.eq_false_iff.mpr hhas⟩
      · exact nomatch hpure

end

end

end Lpm.Services
