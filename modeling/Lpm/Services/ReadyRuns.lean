/-
A start with ready checks, over all its steps: nothing is launched twice or too early,
and nothing waits for ever.

The release loop goes over the nodes once, in an order in which every dependency stands
in front of its dependents. So a node that is still pending behind the loop waits for a
node whose turn was over, and following what the nodes wait for leads to one that is
being checked.
-/
import Lpm.Services.ReadyPlan

set_option autoImplicit false

namespace Lpm.Services

open List Option Function

/-! ## Nodes in order -/

/-- Every name once, and every dependency that has a node in front. -/
structure Ordered (nodes : List Node) : Prop where
  nodup : (nodes.map Node.name).Nodup
  before : ∀ pre node post, nodes = pre ++ node :: post →
    ∀ d ∈ node.deps, d ∈ nodes.map Node.name → d ∈ pre.map Node.name

/-- A plan between two steps. -/
structure Consistent (p : Plan) : Prop where
  ordered : Ordered p.nodes
  keys : ∀ name, p.states name ≠ none → name ∈ p.nodes.map Node.name
  checked : ∀ node ∈ p.nodes, ∀ since,
    p.states node.name = some (.checking since) → node.check.isSome = true

/-! ## The first loop -/

theorem next_state_pending {now : ℕ} {node : Node} {state : State} {result : ProbeResult} :
    next_state now node state result = .pending ↔ state = .pending := by
  unfold next_state
  constructor
  · intro h
    split at h <;> try split_ifs at h
    all_goals first | exact h | simp at h
  · rintro rfl
    cases result <;> rfl

/-- A check goes on only while its timeout has not passed. -/
theorem next_state_checking {now since : ℕ} {node : Node} {state : State} {result : ProbeResult}
    (h : next_state now node state result = .checking since) :
    state = .checking since ∧ now - since < node.timeout := by
  cases state with
  | checking since' =>
    cases result with
    | wait =>
      rw [next_state] at h
      by_cases hlate : now - since' ≥ node.timeout
      · rw [if_pos hlate] at h
        exact absurd h (by simp)
      · rw [if_neg hlate] at h
        rw [State.checking.inj h] at hlate ⊢
        exact ⟨rfl, Nat.lt_of_not_ge hlate⟩
    | pass | ended => exact absurd h (by simp [next_state])
  | late since' reason =>
    cases result with
    | wait =>
      rw [next_state] at h
      split_ifs at h
    | pass | ended => exact absurd h (by simp [next_state])
  | pending | ready | gave_up reason | released => exact absurd h (by cases result <;> simp [next_state])

section
variable {now : ℕ} {results : String → Option ProbeResult}

theorem probe_node_other (s : States × Bool) {node : Node} {name : String}
    (h : node.name ≠ name) : (probe_node now results s node).1 name = s.1 name := by
  unfold probe_node
  rcases s.1 node.name with _ | state
  · rfl
  · simp only
    split_ifs
    · rfl
    · exact update_of_ne h.symm _ _

theorem probe_node_self (s : States × Bool) (node : Node) :
    (probe_node now results s node).1 node.name
      = (s.1 node.name).map fun state =>
        next_state now node state ((results node.name).getD .wait) := by
  unfold probe_node
  rcases hs : s.1 node.name with _ | state
  · exact hs
  · simp only [map_some]
    split_ifs with hsame
    · rw [hs, hsame]
    · exact update_self ..

variable {nodes : List Node}

variable (s : States × Bool)

theorem probe_pass_other {name : String}
    (h : name ∉ nodes.map Node.name) :
    (nodes.foldl (probe_node now results) s).1 name = s.1 name := by
  induction nodes generalizing s with
  | nil => rfl
  | cons node nodes ih =>
    rw [map_cons, mem_cons, not_or] at h
    rw [foldl_cons, ih _ h.2, probe_node_other s (Ne.symm h.1)]

variable (hnodup : (nodes.map Node.name).Nodup)
include hnodup

/-- The first loop takes every node on by the result of its own probe. -/
theorem probe_pass_self {node : Node} (h : node ∈ nodes) :
    (nodes.foldl (probe_node now results) s).1 node.name
      = (s.1 node.name).map fun state =>
        next_state now node state ((results node.name).getD .wait) := by
  induction nodes generalizing s with
  | nil => simp at h
  | cons first nodes ih =>
    rw [map_cons, nodup_cons] at hnodup
    rw [foldl_cons]
    by_cases hfirst : node = first
    · rw [hfirst, probe_pass_other _ hnodup.1, probe_node_self]
    · have hin : node ∈ nodes := (mem_cons.mp h).resolve_left hfirst
      have hne : first.name ≠ node.name := fun heq =>
        hnodup.1 (heq ▸ List.mem_map_of_mem hin)
      rw [ih _ hnodup.2 hin, probe_node_other s hne]

/-- The first loop neither starts nor ends a wait. -/
theorem probe_pass_pending (name : String) :
    (nodes.foldl (probe_node now results) s).1 name = some .pending
      ↔ s.1 name = some .pending := by
  by_cases hin : name ∈ nodes.map Node.name
  · obtain ⟨node, hnode, rfl⟩ := List.mem_map.mp hin
    rw [probe_pass_self s hnodup hnode, map_eq_some_iff]
    constructor
    · rintro ⟨state, hstate, hnext⟩
      rw [hstate, next_state_pending.mp hnext]
    · intro hpending
      exact ⟨_, hpending, next_state_pending.mpr rfl⟩
  · rw [probe_pass_other s hin]

theorem probe_pass_none (name : String) :
    (nodes.foldl (probe_node now results) s).1 name = none ↔ s.1 name = none := by
  by_cases hin : name ∈ nodes.map Node.name
  · obtain ⟨node, hnode, rfl⟩ := List.mem_map.mp hin
    rw [probe_pass_self s hnodup hnode, map_eq_none_iff]
  · rw [probe_pass_other s hin]

/-- What is being checked behind the first loop was before, and has time left. -/
theorem probe_pass_checking
    {node : Node} (h : node ∈ nodes) {since : ℕ}
    (hchecking : (nodes.foldl (probe_node now results) s).1 node.name = some (.checking since)) :
    s.1 node.name = some (.checking since) ∧ now - since < node.timeout := by
  rw [probe_pass_self s hnodup h, map_eq_some_iff] at hchecking
  obtain ⟨state, hstate, hnext⟩ := hchecking
  obtain ⟨hsame, htime⟩ := next_state_checking hnext
  exact ⟨by rw [hstate, hsame], htime⟩

end

/-! ## The second loop -/

section
variable {now : ℕ}

/-- The states after the turns of some nodes, and what these launched. -/
def release (now : ℕ) (states : States) (nodes : List Node) : States × List String :=
  nodes.foldl (release_node now) (states, [])

/-- The state a node is launched into. -/
def launched_state (now : ℕ) (node : Node) : State :=
  if node.check.isSome then .checking now else .ready

theorem launched_not_pending (now : ℕ) (node : Node) : launched_state now node ≠ .pending := by
  unfold launched_state
  split_ifs <;> simp

/-- Whether a node's turn launches it. -/
def goes (states : States) (node : Node) : Prop :=
  states node.name = some .pending ∧ node.deps.all (released states) = true

variable {node : Node}

theorem release_node_goes {s : States × List String} (h : goes s.1 node) :
    release_node now s node
      = (update s.1 node.name (some (launched_state now node)), s.2 ++ [node.name]) :=
  if_pos h

theorem release_node_stays {s : States × List String} (h : ¬ goes s.1 node) :
    release_node now s node = s :=
  if_neg h

variable (states : States)

theorem release_acc (launch : List String) (nodes : List Node) :
    nodes.foldl (release_node now) (states, launch)
      = ((release now states nodes).1, launch ++ (release now states nodes).2) := by
  induction nodes generalizing states launch with
  | nil => simp [release]
  | cons node nodes ih =>
    unfold release
    rw [foldl_cons, foldl_cons]
    by_cases h : goes states node
    · rw [release_node_goes (s := (states, launch)) h, release_node_goes (s := (states, [])) h, ih,
        ih _ ([] ++ [node.name])]
      simp
    · rw [release_node_stays (s := (states, launch)) h, release_node_stays (s := (states, [])) h, ih,
        ih _ []]
      simp

theorem release_goes {states : States} (h : goes states node) (nodes : List Node) :
    release now states (node :: nodes)
      = ((release now (update states node.name (some (launched_state now node))) nodes).1,
        node.name ::
          (release now (update states node.name (some (launched_state now node))) nodes).2) := by
  rw [release, foldl_cons, release_node_goes h, release_acc]
  rfl

theorem release_stays {states : States} (h : ¬ goes states node) (nodes : List Node) :
    release now states (node :: nodes) = release now states nodes := by
  rw [release, foldl_cons, release_node_stays h]
  rfl

theorem release_other {nodes : List Node} {name : String}
    (h : name ∉ nodes.map Node.name) : (release now states nodes).1 name = states name := by
  induction nodes generalizing states with
  | nil => rfl
  | cons node nodes ih =>
    rw [map_cons, mem_cons, not_or] at h
    by_cases hgo : goes states node
    · rw [release_goes hgo]
      exact (ih _ h.2).trans (update_of_ne h.1 _ _)
    · rw [release_stays hgo, ih _ h.2]

variable (nodes : List Node) {name : String}

/-- Only a node that is pending changes. -/
theorem release_settled
    (h : states name ≠ some .pending) : (release now states nodes).1 name = states name := by
  induction nodes generalizing states with
  | nil => rfl
  | cons node nodes ih =>
    by_cases hgo : goes states node
    · have hne : name ≠ node.name := fun heq => h (heq ▸ hgo.1)
      have hsame : update states node.name (some (launched_state now node)) name
          = states name := update_of_ne hne _ _
      rw [release_goes hgo]
      exact (ih _ (by rw [hsame]; exact h)).trans hsame
    · rw [release_stays hgo, ih _ h]

/-- What is launched was pending, and is not any more. -/
theorem release_launched :
    ∀ name ∈ (release now states nodes).2,
      name ∈ nodes.map Node.name ∧ states name = some .pending
        ∧ (release now states nodes).1 name ≠ some .pending := by
  induction nodes generalizing states with
  | nil => simp [release]
  | cons node nodes ih =>
    intro name hname
    by_cases hgo : goes states node
    · rw [release_goes hgo] at hname ⊢
      have hupdate : update states node.name (some (launched_state now node)) node.name
          ≠ some .pending := by
        rw [update_self]
        exact fun h => launched_not_pending now node (some.inj h)
      rcases mem_cons.mp hname with rfl | hname
      · refine ⟨mem_cons_self .., hgo.1, ?_⟩
        change (release now _ nodes).1 node.name ≠ _
        rw [release_settled _ _ hupdate]
        exact hupdate
      · obtain ⟨hin, hpending, hafter⟩ := ih _ name hname
        have hne : name ≠ node.name := by
          rintro rfl
          exact hupdate hpending
        rw [update_of_ne hne] at hpending
        exact ⟨mem_cons_of_mem _ hin, hpending, hafter⟩
    · rw [release_stays hgo] at hname ⊢
      obtain ⟨hin, hrest⟩ := ih _ name hname
      exact ⟨mem_cons_of_mem _ hin, hrest⟩

theorem release_sublist :
    (release now states nodes).2.Sublist (nodes.map Node.name) := by
  induction nodes generalizing states with
  | nil => exact List.Sublist.refl _
  | cons node nodes ih =>
    by_cases hgo : goes states node
    · rw [release_goes hgo]
      exact (ih _).cons_cons _
    · rw [release_stays hgo]
      exact (ih _).cons _

/-- A wait does not begin here, and nothing appears. -/
theorem release_pending
    (h : (release now states nodes).1 name = some .pending) : states name = some .pending := by
  by_contra hnot
  rw [release_settled states nodes hnot] at h
  exact hnot h

theorem release_none
    (h : (release now states nodes).1 name ≠ none) : states name ≠ none := by
  intro hnone
  rw [release_settled states nodes (by rw [hnone]; simp)] at h
  exact h hnone

theorem release_append (pre post : List Node) :
    (release now states (pre ++ post)).1 = (release now (release now states pre).1 post).1 := by
  have happend : release now states (pre ++ post)
      = post.foldl (release_node now) (release now states pre) := foldl_append
  have hacc := @release_acc now (release now states pre).1 (release now states pre).2 post
  have hfst := congrArg Prod.fst hacc
  rw [happend]
  exact hfst

theorem released_eq_false {states : States} :
    released states name = false
      ↔ states name = some .pending ∨ ∃ since, states name = some (.checking since) := by
  unfold released
  constructor
  · intro h
    split at h
    · exact .inl ‹_›
    · exact .inr ⟨_, ‹_›⟩
    · exact absurd h (by simp)
  · rintro (h | ⟨since, h⟩)
    · rw [h]
    · rw [h]

/-- A node's own turn, in the middle of the loop. -/
theorem release_turn {pre post : List Node} {node : Node}
    (hnodup : ((pre ++ node :: post).map Node.name).Nodup) :
    (release now states pre).1 node.name = states node.name
      ∧ (goes (release now states pre).1 node →
        (release now states (pre ++ node :: post)).1 node.name = some (launched_state now node))
      ∧ (¬ goes (release now states pre).1 node →
        (release now states (pre ++ node :: post)).1 node.name = states node.name) := by
  rw [map_append, map_cons, nodup_append, nodup_cons] at hnodup
  have hpre : node.name ∉ pre.map Node.name := fun hin =>
    hnodup.2.2 _ hin _ (mem_cons_self ..) rfl
  have hsame := @release_other now states _ _ hpre
  refine ⟨hsame, fun hgo => ?_, fun hgo => ?_⟩
  · rw [release_append, release_goes hgo]
    exact (release_other _ hnodup.2.1.1).trans (update_self ..)
  · rw [release_append, release_stays hgo, release_other _ hnodup.2.1.1, hsame]

/-- What is being checked behind the second loop was before, or was launched by it. -/
theorem release_checking {nodes : List Node}
    (hnodup : (nodes.map Node.name).Nodup) (h : node ∈ nodes) {since : ℕ}
    (hchecking : (release now states nodes).1 node.name = some (.checking since)) :
    states node.name = some (.checking since) ∨ since = now ∧ node.check.isSome = true := by
  obtain ⟨pre, post, rfl⟩ := append_of_mem h
  obtain ⟨hsame, hgoes, hstays⟩ := @release_turn now states _ _ _ hnodup
  by_cases hgo : goes (release now states pre).1 node
  · right
    rw [hgoes hgo, launched_state] at hchecking
    split_ifs at hchecking with hcheck
    · exact ⟨(State.checking.inj (some.inj hchecking)).symm, hcheck⟩
    · simp at hchecking
  · left
    rw [← hstays hgo, hchecking]

/-- A node that still waits behind the loop waits for one that stands in front of it. -/
theorem release_stuck {nodes : List Node} (hordered : Ordered nodes)
    (hkeys : ∀ name, states name ≠ none → name ∈ nodes.map Node.name) {pre post : List Node}
    (hsplit : nodes = pre ++ node :: post)
    (hpending : (release now states nodes).1 node.name = some .pending) :
    ∃ d ∈ pre.map Node.name, released (release now states nodes).1 d = false := by
  have hnodup := hordered.nodup
  have hbefore := hordered.before pre node post hsplit
  rw [hsplit] at hnodup hpending hkeys hbefore ⊢
  obtain ⟨hsame, hgoes, -⟩ := @release_turn now states _ _ _ hnodup
  have hgo : ¬ goes (release now states pre).1 node := by
    intro hgo
    rw [hgoes hgo] at hpending
    exact launched_not_pending now node (some.inj hpending)
  have hwaits : (release now states pre).1 node.name = some .pending := by
    rw [hsame]
    exact release_pending _ _ hpending
  have hdeps : ¬ node.deps.all (released (release now states pre).1) = true := fun hall =>
    hgo ⟨hwaits, hall⟩
  obtain ⟨d, hd, hunreleased⟩ : ∃ d ∈ node.deps, released (release now states pre).1 d = false := by
    by_contra hno
    refine hdeps (List.all_eq_true.mpr fun d hd => ?_)
    by_contra hfalse
    exact hno ⟨d, hd, by simpa using hfalse⟩
  have hthere : (release now states pre).1 d ≠ none := by
    rcases released_eq_false.mp hunreleased with h | ⟨since, h⟩
    · rw [h]; simp
    · rw [h]; simp
  have hin : d ∈ pre.map Node.name := hbefore d hd (hkeys d (release_none _ _ hthere))
  -- its turn is over, so it is the same behind the loop
  have hd' : (release now states (pre ++ node :: post)).1 d = (release now states pre).1 d := by
    rw [release_append, release_other]
    rw [map_append, nodup_append] at hnodup
    exact fun hlater => hnodup.2.2 d hin d hlater rfl
  refine ⟨d, hin, ?_⟩
  unfold released at hunreleased ⊢
  rw [hd']
  exact hunreleased

/-- Following what a waiting node waits for leads to one that is being checked. -/
theorem release_some_checking {nodes : List Node} (hordered : Ordered nodes)
    (hkeys : ∀ name, states name ≠ none → name ∈ nodes.map Node.name) (n : ℕ) :
    ∀ pre node post, pre.length = n → nodes = pre ++ node :: post →
      (release now states nodes).1 node.name = some .pending →
      ∃ c ∈ nodes, ∃ since, (release now states nodes).1 c.name = some (.checking since) := by
  induction n using Nat.strongRecOn with
  | _ n ih =>
    intro pre node post hlen hsplit hpending
    obtain ⟨d, hd, hunreleased⟩ := release_stuck states hordered hkeys hsplit hpending
    obtain ⟨c, hc, rfl⟩ := List.mem_map.mp hd
    have hmem : c ∈ nodes := by
      rw [hsplit]
      exact mem_append_left _ hc
    rcases released_eq_false.mp hunreleased with hwaits | hchecking
    · obtain ⟨pre', post', hpre⟩ := append_of_mem hc
      refine ih pre'.length ?_ pre' c (post' ++ node :: post) rfl ?_ hwaits
      · rw [← hlen, hpre, length_append, length_cons]
        omega
      · rw [hsplit, hpre, append_assoc, cons_append]
    · exact ⟨c, hmem, hchecking⟩

end

/-! ## One step -/

section
variable {p : Plan} {call : Call}

/-- The states behind the first loop of a step. -/
def probed (p : Plan) (call : Call) : States :=
  (p.nodes.foldl (probe_node call.now call.results) (p.states, false)).1

theorem Consistent.probed_keys (h : Consistent p) (name : String)
    (hname : probed p call name ≠ none) : name ∈ p.nodes.map Node.name :=
  h.keys name fun hnone => hname ((probe_pass_none _ h.ordered.nodup name).mpr hnone)

theorem Consistent.step (h : Consistent p) (call : Call) :
    Consistent (p.step call.now call.results).1 where
  ordered := h.ordered
  keys name hname := h.probed_keys name (release_none _ _ hname)
  checked node hnode since hchecking := by
    rcases release_checking _ h.ordered.nodup hnode hchecking with hbefore | ⟨-, hcheck⟩
    · exact h.checked node hnode since (probe_pass_checking _ h.ordered.nodup hnode hbefore).1
    · exact hcheck

/-- A node is being checked, and its timeout has not passed. -/
def being_checked (p : Plan) (now : ℕ) (node : Node) : Prop :=
  ∃ since check, node.check = some check ∧ p.states node.name = some (.checking since)
    ∧ now - since < check.timeout

theorem ReadyCheck.timeout_pos (c : ReadyCheck) : 0 < c.timeout :=
  Nat.mul_pos c.in_range.1 (by decide)

/-- While a node waits behind a step, another one is being checked in time. -/
theorem Consistent.step_waits (h : Consistent p) (call : Call) {name : String}
    (hpending : (p.step call.now call.results).1.states name = some .pending) :
    ∃ node ∈ p.nodes, node.name ≠ name
      ∧ being_checked (p.step call.now call.results).1 call.now node := by
  have hkeys : name ∈ p.nodes.map Node.name :=
    (h.step call).keys name (by rw [hpending]; simp)
  obtain ⟨node, hnode, rfl⟩ := List.mem_map.mp hkeys
  obtain ⟨pre, post, hsplit⟩ := append_of_mem hnode
  obtain ⟨c, hc, since, hchecking⟩ := release_some_checking (probed p call) h.ordered
    (fun name hname => h.probed_keys name hname) _ pre node post rfl hsplit hpending
  refine ⟨c, hc, ?_, since, ?_⟩
  · intro heq
    rw [← heq] at hpending
    exact absurd (hpending.symm.trans hchecking) (by simp)
  · obtain ⟨check, hcheck⟩ := isSome_iff_exists.mp ((h.step call).checked c hc since hchecking)
    refine ⟨check, hcheck, hchecking, ?_⟩
    rcases release_checking _ h.ordered.nodup hc hchecking with hbefore | ⟨hnow, -⟩
    · have htime := (probe_pass_checking _ h.ordered.nodup hc hbefore).2
      rw [Node.timeout, hcheck] at htime
      exact htime
    · rw [hnow, Nat.sub_self]
      exact check.timeout_pos

theorem Consistent.step_launched (h : Consistent p) (call : Call) :
    ∀ name ∈ (p.step call.now call.results).2.launch,
      p.states name = some .pending
        ∧ (p.step call.now call.results).1.states name ≠ some .pending := by
  intro name hname
  obtain ⟨-, hpending, hafter⟩ := release_launched (probed p call) p.nodes name hname
  exact ⟨(probe_pass_pending _ h.ordered.nodup name).mp hpending, hafter⟩

/-- No wait begins in a step. -/
theorem Consistent.step_pending (h : Consistent p) (call : Call) {name : String}
    (hpending : (p.step call.now call.results).1.states name = some .pending) :
    p.states name = some .pending :=
  (probe_pass_pending _ h.ordered.nodup name).mp (release_pending _ _ hpending)

theorem Consistent.step_nodup (h : Consistent p) (call : Call) :
    (p.step call.now call.results).2.launch.Nodup :=
  (release_sublist (probed p call) p.nodes).nodup h.ordered.nodup

end

/-! ## A new plan is consistent -/

/-- Every dependency of a service that is in the batch too comes before it. -/
def DependencyOrder (batch : List String) (deps_of : String → List String) : Prop :=
  ∀ pre name post, batch = pre ++ name :: post → ∀ d ∈ deps_of name, d ∈ batch → d ∈ pre

/-- What holds of the nodes at every turn of both loops of `Plan::new`. A dependency that
has no node in front and is not in the batch gets none later. -/
structure Sound (batch : List String) (deps_of : String → List String) (b : Building) : Prop where
  nodup : (b.nodes.map Node.name).Nodup
  known : ∀ name ∈ b.nodes.map Node.name, name ∈ b.seen
  deps : ∀ node ∈ b.nodes, node.name ∈ batch → node.deps = deps_of node.name
  before : ∀ pre node post, b.nodes = pre ++ node :: post →
    ∀ d ∈ node.deps, d ∈ pre.map Node.name ∨ d ∉ batch ∧ d ∉ b.nodes.map Node.name
  keys : ∀ name, b.states name ≠ none → name ∈ b.nodes.map Node.name
  checked : ∀ node ∈ b.nodes, ∀ since,
    b.states node.name = some (.checking since) → node.check.isSome = true
  waiting : ∀ name, b.states name = some .pending → name ∈ batch

section
variable {batch running : List String} {deps_of : String → List String}
  {check_of : String → Option ReadyCheck} {now : ℕ}

/-- A name that was not seen gets a node. -/
theorem Sound.add {b : Building} (h : Sound batch deps_of b) {node : Node} {state : State}
    (hfresh : node.name ∉ b.seen) (hdeps : node.name ∈ batch → node.deps = deps_of node.name)
    (hbefore : ∀ d ∈ node.deps, d ∈ b.nodes.map Node.name
      ∨ d ∉ batch ∧ d ∉ b.nodes.map Node.name ∧ d ≠ node.name)
    (hold : ∀ old ∈ b.nodes, node.name ∈ old.deps → node.name ∈ batch)
    (hchecked : ∀ since, state = .checking since → node.check.isSome = true)
    (hwaiting : state = .pending → node.name ∈ batch) :
    Sound batch deps_of ({ b with seen := node.name :: b.seen }.add node state) where
  nodup := by
    have hnew : node.name ∉ b.nodes.map Node.name := fun hin => hfresh (h.known _ hin)
    show ((b.nodes ++ [node]).map Node.name).Nodup
    rw [map_append, map_singleton]
    exact nodup_append.mpr ⟨h.nodup, nodup_singleton _, fun a ha c hc heq =>
      hnew (mem_singleton.mp hc ▸ heq ▸ ha)⟩
  known name hname := by
    change name ∈ (b.nodes ++ [node]).map Node.name at hname
    rw [map_append, mem_append, map_singleton, mem_singleton] at hname
    rcases hname with hname | rfl
    · exact mem_cons_of_mem _ (h.known name hname)
    · exact mem_cons_self ..
  deps other hother := by
    rcases mem_append.mp hother with hother | hother
    · exact h.deps other hother
    · rw [mem_singleton.mp hother]
      exact hdeps
  before pre other post hsplit d hd := by
    -- the new node is the last: a split ends in it, or is one of the old nodes
    change b.nodes ++ [node] = pre ++ other :: post at hsplit
    show _ ∨ _ ∧ d ∉ (b.nodes ++ [node]).map Node.name
    rw [map_append, mem_append, map_singleton, mem_singleton]
    rcases eq_nil_or_concat post with rfl | ⟨post', last, rfl⟩
    -- the new node
    · obtain ⟨hpre, hlast⟩ := append_inj' hsplit rfl
      obtain rfl : node = other := (List.cons.inj hlast).1
      rw [← hpre]
      rcases hbefore d hd with hin | ⟨hout, hno, hne⟩
      · exact .inl hin
      · exact .inr ⟨hout, fun hor => hor.elim hno hne⟩
    -- one that is there already
    · have hnodes : b.nodes = pre ++ other :: post' := by
        rw [concat_eq_append, ← cons_append, ← append_assoc] at hsplit
        exact (append_inj' hsplit rfl).1
      have hmem : other ∈ b.nodes := by
        rw [hnodes]
        simp
      rcases h.before pre other post' hnodes d hd with hin | ⟨hout, hno⟩
      · exact .inl hin
      · refine .inr ⟨hout, fun hor => hor.elim hno ?_⟩
        rintro rfl
        exact hout (hold other hmem hd)
  keys name hname := by
    show name ∈ (b.nodes ++ [node]).map Node.name
    rw [map_append, mem_append, map_singleton, mem_singleton]
    by_cases heq : name = node.name
    · exact .inr heq
    · left
      apply h.keys
      change update b.states node.name (some state) name ≠ none at hname
      rw [update_of_ne heq] at hname
      exact hname
  checked other hother since hstate := by
    change update b.states node.name (some state) other.name = _ at hstate
    rcases mem_append.mp hother with hother | hother
    · have hne : other.name ≠ node.name := fun heq =>
        hfresh (heq ▸ h.known _ (List.mem_map_of_mem hother))
      rw [update_of_ne hne] at hstate
      exact h.checked other hother since hstate
    · rw [mem_singleton.mp hother] at hstate ⊢
      rw [update_self] at hstate
      exact hchecked since (some.inj hstate)
  waiting name hstate := by
    change update b.states node.name (some state) name = _ at hstate
    by_cases heq : name = node.name
    · rw [heq, update_self] at hstate
      rw [heq]
      exact hwaiting (some.inj hstate)
    · rw [update_of_ne heq] at hstate
      exact h.waiting name hstate

/-- The nodes of the first loop stand outside the batch and wait for nothing. -/
structure Outside (batch : List String) (deps_of : String → List String) (b : Building) : Prop where
  sound : Sound batch deps_of b
  alone : ∀ node ∈ b.nodes, node.deps = []
  seen : ∀ name ∈ b.seen, name ∉ batch

theorem Outside.watch {b : Building} (h : Outside batch deps_of b) (dep : String) :
    Outside batch deps_of (watch_running batch running check_of now b dep) := by
  unfold watch_running
  by_cases hwatch : dep ∉ batch ∧ dep ∈ running ∧ dep ∉ b.seen
  · rw [if_pos hwatch]
    have hseen : ∀ name ∈ dep :: b.seen, name ∉ batch := by
      intro name hname
      rcases mem_cons.mp hname with rfl | hname
      · exact hwatch.1
      · exact h.seen name hname
    rcases check_of dep with _ | check
    -- `seen` grows all the same
    · exact ⟨⟨h.sound.nodup, fun name hname => mem_cons_of_mem _ (h.sound.known name hname),
        h.sound.deps, h.sound.before, h.sound.keys, h.sound.checked, h.sound.waiting⟩, h.alone, hseen⟩
    · refine ⟨h.sound.add hwatch.2.2 (fun hin => absurd hin hwatch.1) ?_ ?_ ?_ ?_, ?_, hseen⟩
      · intro d hd
        exact absurd hd not_mem_nil
      · intro old hold hin
        rw [h.alone old hold] at hin
        exact absurd hin not_mem_nil
      · intro since _
        rfl
      · intro hstate
        exact absurd hstate (by simp)
      · intro node hnode
        rcases mem_append.mp hnode with hnode | hnode
        · exact h.alone node hnode
        · rw [mem_singleton.mp hnode]
  · rw [if_neg hwatch]
    exact h

theorem outside_running_nodes :
    Outside batch deps_of (running_nodes batch running deps_of check_of now) := by
  have hfold : ∀ (names : List String) (b : Building), Outside batch deps_of b →
      Outside batch deps_of (names.foldl (watch_running batch running check_of now) b) := by
    intro names
    induction names with
    | nil => exact fun b h => h
    | cons name names ih => exact fun b h => ih _ (h.watch name)
  apply hfold
  refine ⟨⟨nodup_nil, ?_, ?_, ?_, ?_, ?_, ?_⟩, ?_, ?_⟩ <;> simp

/-- The second loop behind some of the batch: these have nodes, the others are not seen. -/
structure Covers (batch : List String) (deps_of : String → List String) (pre : List String)
    (b : Building) : Prop where
  sound : Sound batch deps_of b
  there : ∀ name ∈ pre, name ∈ b.nodes.map Node.name
  seen : ∀ name ∈ batch, name ∈ b.seen → name ∈ pre

variable (horder : DependencyOrder batch deps_of)
include horder

theorem Covers.add {pre post : List String} {name : String}
    (hsplit : batch = pre ++ name :: post) {b : Building} (h : Covers batch deps_of pre b)
    (gated deferred : List String) :
    Covers batch deps_of (pre ++ [name])
      (add_service batch deps_of check_of now gated (b, deferred) name).1 := by
  have hbatch : name ∈ batch := by
    rw [hsplit]
    simp
  have hgrow : ∀ other, other ∈ pre ++ [name] ↔ other ∈ pre ∨ other = name := by simp
  unfold add_service
  by_cases hseen : name ∈ b.seen
  · simp only [if_pos hseen]
    refine ⟨h.sound, fun other hother => ?_, fun other hother hin => ?_⟩
    · rcases (hgrow other).mp hother with hpre | rfl
      · exact h.there other hpre
      · exact h.there other (h.seen other hbatch hseen)
    · exact (hgrow other).mpr (.inl (h.seen other hother hin))
  · simp only [if_neg hseen]
    refine ⟨h.sound.add hseen (fun _ => rfl) ?_ (fun _ _ _ => hbatch) ?_ (fun _ => hbatch), ?_, ?_⟩
    · intro d hd
      -- what it needs stands earlier in the batch, or outside it
      by_cases hin : d ∈ batch
      · exact .inl (h.there d (horder pre name post hsplit d hd hin))
      · by_cases hnode : d ∈ b.nodes.map Node.name
        · exact .inl hnode
        · exact .inr ⟨hin, hnode, fun heq => hin (heq ▸ hbatch)⟩
    · intro since hstate
      split_ifs at hstate with hwait hcheck
      exact hcheck
    · intro other hother
      show other ∈ (b.nodes ++ [_]).map Node.name
      rw [map_append, mem_append]
      rcases (hgrow other).mp hother with hpre | rfl
      · exact .inl (h.there other hpre)
      · exact .inr (mem_singleton.mpr rfl)
    · intro other hother hin
      rcases mem_cons.mp hin with rfl | hin
      · exact (hgrow _).mpr (.inr rfl)
      · exact (hgrow other).mpr (.inl (h.seen other hother hin))

theorem covers_batch (gated : List String)
    (post : List String) : ∀ (pre : List String) (s : Building × List String),
      batch = pre ++ post → Covers batch deps_of pre s.1 →
      Covers batch deps_of batch (post.foldl (add_service batch deps_of check_of now gated) s).1 := by
  induction post with
  | nil =>
    intro pre s hsplit h
    rw [append_nil] at hsplit
    rw [hsplit] at h ⊢
    exact h
  | cons name post ih =>
    intro pre s hsplit h
    apply ih (pre ++ [name])
    · rw [hsplit, append_assoc, singleton_append]
    · exact h.add horder hsplit gated s.2

/-- `Plan::new` gives a consistent plan, with the services of the batch as they are. -/
theorem new_consistent {plan : Plan}
    (hnew : Plan.new batch running deps_of check_of now = some plan) :
    Consistent plan ∧ (∀ node ∈ plan.nodes, node.name ∈ batch → node.deps = deps_of node.name)
      ∧ ∀ name ∈ plan.deferred, name ∈ batch := by
  unfold Plan.new at hnew
  simp only at hnew
  split_ifs at hnew
  cases hnew
  have hstart : Outside batch deps_of (running_nodes batch running deps_of check_of now) :=
    outside_running_nodes
  have hall := @covers_batch _ _ check_of now horder
    ((running_nodes batch running deps_of check_of now).nodes.map Node.name) batch []
    (running_nodes batch running deps_of check_of now, []) rfl
    ⟨hstart.sound, by simp, fun name hin hseen => absurd hin (hstart.seen name hseen)⟩
  refine ⟨⟨⟨hall.sound.nodup, ?_⟩, hall.sound.keys, hall.sound.checked⟩, hall.sound.deps, ?_⟩
  · intro pre node post hsplit d hd hin
    rcases hall.sound.before pre node post hsplit d hd with hpre | ⟨-, hno⟩
    · exact hpre
    · exact absurd hin hno
  · intro name hname
    rw [Plan.deferred, mem_filter, beq_iff_eq] at hname
    exact hall.sound.waiting name hname.2

end

/-! ## Every run -/

/-- The states when the second loop of a step comes to a name. -/
def turn (p : Plan) (call : Call) (name : String) : States :=
  (release call.now (probed p call) (p.nodes.takeWhile fun node => decide (node.name ≠ name))).1

/-- Ready, timed out or ended. -/
def settled : State → Bool
  | .ready | .late .. | .gave_up _ | .released => true
  | .pending | .checking _ => false

theorem settled_of_released {states : States} {name : String} (h : released states name = true)
    {state : State} (hstate : states name = some state) : settled state = true := by
  unfold released at h
  rw [hstate] at h
  cases state with
  | pending => exact h
  | checking since => exact h
  | ready => rfl
  | late since reason => rfl
  | gave_up reason => rfl
  | released => rfl

/-- When a node is launched, what it depends on is settled. -/
theorem Consistent.step_deps {p : Plan} (h : Consistent p) (call : Call) {node : Node}
    (hnode : node ∈ p.nodes) (hlaunch : node.name ∈ (p.step call.now call.results).2.launch) :
    ∀ d ∈ node.deps, ∀ state, turn p call node.name d = some state → settled state = true := by
  intro d hd state hstate
  obtain ⟨-, hpending, hafter⟩ := release_launched (probed p call) p.nodes _ hlaunch
  obtain ⟨pre, post, hsplit⟩ := append_of_mem hnode
  have hnodup := h.ordered.nodup
  rw [hsplit] at hnodup hafter
  obtain ⟨-, -, hstays⟩ := @release_turn call.now (probed p call) _ _ _ hnodup
  have hturn : turn p call node.name = (release call.now (probed p call) pre).1 := by
    have hother : ∀ other ∈ pre, decide (other.name ≠ node.name) = true := by
      intro other hother
      rw [map_append, map_cons, nodup_append] at hnodup
      exact decide_eq_true (hnodup.2.2 _ (List.mem_map_of_mem hother) _ (mem_cons_self ..))
    rw [turn, hsplit, takeWhile_append_of_pos hother, takeWhile_cons_of_neg (by simp),
      append_nil]
  by_cases hgo : goes (release call.now (probed p call) pre).1 node
  · rw [hturn] at hstate
    exact settled_of_released (List.all_eq_true.mp hgo.2 d hd) hstate
  · exact absurd ((hstays hgo).trans hpending) hafter

/-- Over any calls: what was launched was waiting at the start, is not any more, and was
launched once. -/
structure Launched (p p' : Plan) (launched : List String) : Prop where
  consistent : Consistent p'
  nodes : p'.nodes = p.nodes
  once : launched.Nodup
  was_pending : ∀ name ∈ launched, p.states name = some .pending ∧ p'.states name ≠ some .pending
  pending : ∀ name, p'.states name = some .pending → p.states name = some .pending

theorem Consistent.launched_step {p : Plan} (h : Consistent p) (call : Call) :
    Launched p (p.step call.now call.results).1 (p.step call.now call.results).2.launch :=
  ⟨h.step call, rfl, h.step_nodup call, h.step_launched call, fun _ => h.step_pending call⟩

theorem Launched.trans {p p' p'' : Plan} {first second : List String} (h : Launched p p' first)
    (h' : Launched p' p'' second) : Launched p p'' (first ++ second) where
  consistent := h'.consistent
  nodes := h'.nodes.trans h.nodes
  once := nodup_append.mpr ⟨h.once, h'.once, fun a ha b hb heq =>
    (h.was_pending a ha).2 (heq ▸ (h'.was_pending b hb).1)⟩
  was_pending name hname := by
    rcases mem_append.mp hname with hname | hname
    · obtain ⟨hbefore, hafter⟩ := h.was_pending name hname
      exact ⟨hbefore, fun hagain => hafter (h'.pending name hagain)⟩
    · obtain ⟨hbefore, hafter⟩ := h'.was_pending name hname
      exact ⟨h.pending name hbefore, hafter⟩
  pending name hname := h.pending name (h'.pending name hname)

theorem Consistent.launched_run {p : Plan} (h : Consistent p) (calls : List Call) :
    Launched p (p.run calls).1 (p.run calls).2 := by
  induction calls generalizing p with
  | nil => exact ⟨h, rfl, nodup_nil, by simp [Plan.run], fun _ hname => hname⟩
  | cons call calls ih => exact (h.launched_step call).trans (ih (h.step call))

/-- A start with ready checks never hangs: after any calls and one more, every deferred
service was launched at most once, by the last call only behind what it depends on, no
other service was launched, and while one still waits another is being checked whose
timeout has not passed. -/
theorem start_never_hangs (batch running : List String) (deps_of : String → List String)
    (check_of : String → Option ReadyCheck) (start : ℕ) (plan : Plan)
    (horder : DependencyOrder batch deps_of)
    (hnew : Plan.new batch running deps_of check_of start = some plan)
    (before : List Call) (call : Call) :
    let (p, launched) := plan.run before
    let (p', step) := p.step call.now call.results
    (launched ++ step.launch).Nodup
      ∧ (∀ name ∈ launched ++ step.launch, name ∈ plan.deferred)
      ∧ (∀ name ∈ step.launch, ∀ d ∈ deps_of name, ∀ state,
        turn p call name d = some state → settled state = true)
      ∧ ∀ name, p'.states name = some .pending →
        ∃ node ∈ p'.nodes, node.name ≠ name ∧ being_checked p' call.now node := by
  obtain ⟨hplan, hdeps, hbatch⟩ := new_consistent horder hnew
  have hrun := hplan.launched_run before
  have hstep := hrun.trans (hrun.consistent.launched_step call)
  have hdeferred : ∀ name ∈ (plan.run before).2
      ++ ((plan.run before).1.step call.now call.results).2.launch, name ∈ plan.deferred := by
    intro name hname
    obtain ⟨hpending, -⟩ := hstep.was_pending name hname
    rw [Plan.deferred, mem_filter, beq_iff_eq]
    exact ⟨hplan.keys name (by rw [hpending]; simp), hpending⟩
  refine ⟨hstep.once, hdeferred, ?_, fun name => hrun.consistent.step_waits call⟩
  intro name hname
  have hin := hdeferred name (mem_append_right _ hname)
  obtain ⟨node, hnode, rfl⟩ := List.mem_map.mp (mem_filter.mp hin).1
  rw [← hdeps node hnode (hbatch _ hin)]
  exact hrun.consistent.step_deps call (hrun.nodes ▸ hnode) hname

/-- `web` waits for `api`, and `api` for `db`. -/
def chain_deps (name : String) : List String :=
  if name = "api" then ["db"] else if name = "web" then ["api"] else []

def chain_check (name : String) : Option ReadyCheck :=
  if name = "web" then none else some { secs := 30, in_range := by decide }

def db_passes : Call :=
  { now := NANOS, results := fun name => if name = "db" then some .pass else none }

theorem chain_order : DependencyOrder ["db", "api", "web"] chain_deps := by
  intro pre name post hsplit d hd _
  rcases pre with _ | ⟨first, _ | ⟨second, _ | ⟨third, pre⟩⟩⟩
  · obtain rfl : "db" = name := (List.cons.inj hsplit).1
    simp [chain_deps] at hd
  · have hlists := List.cons.inj hsplit
    obtain rfl : "db" = first := hlists.1
    obtain rfl : "api" = name := (List.cons.inj hlists.2).1
    simpa [chain_deps] using hd
  · have hlists := List.cons.inj (List.cons.inj hsplit).2
    obtain rfl : "api" = second := hlists.1
    obtain rfl : "web" = name := (List.cons.inj hlists.2).1
    have hapi : d = "api" := by simpa [chain_deps] using hd
    rw [hapi]
    simp
  · have hlen := congrArg List.length hsplit
    simp at hlen

/-- `db` passes: `api` goes, and `web` waits for `api`, which is being checked. -/
theorem start_never_hangs_chain :
    ∃ plan, Plan.new ["db", "api", "web"] [] chain_deps chain_check 0 = some plan
      ∧ (plan.step db_passes.now db_passes.results).2.launch = ["api"]
      ∧ ∃ node ∈ plan.nodes, node.name ≠ "web"
        ∧ being_checked (plan.step db_passes.now db_passes.results).1 db_passes.now node := by
  refine ⟨_, rfl, rfl, ?_⟩
  exact (start_never_hangs _ [] _ chain_check 0 _ chain_order rfl [] db_passes).2.2.2 "web" rfl

end Lpm.Services
