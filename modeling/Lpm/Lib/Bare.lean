/-
Trees of names in which every node bears something or has a branch, and what a change of
such a tree leaves bare.

A branch that is taken out, or put elsewhere, can leave bare only the node that held it.
When that node is taken out as well, the one above it may be next: taking bare nodes out
has to be said of one node at a time.
-/
import Lpm.Lib.Moves

set_option autoImplicit false

namespace Moves

open List

variable {ι κ γ : Type*}

/-! ## Places one below another -/

/-- The place right below another, at a key. -/
def below (place : ι × List κ) (k : κ) : ι × List κ := (place.1, place.2 ++ [k])

section
variable {branch place other : ι × List κ} {k j : κ}

theorem under_below : Under branch (below place k) ↔ Under branch place ∨ branch = below place k := by
  constructor
  · rintro ⟨hroot, hstarts⟩
    rcases prefix_concat_iff.mp hstarts with heq | hstarts
    · exact Or.inr (Prod.ext hroot.symm heq)
    · exact Or.inl ⟨hroot, hstarts⟩
  · rintro (⟨hroot, hstarts⟩ | rfl)
    · exact ⟨hroot, hstarts.trans (prefix_append _ _)⟩
    · exact ⟨rfl, prefix_rfl⟩

theorem under_refl (branch : ι × List κ) : Under branch branch := ⟨rfl, prefix_rfl⟩

/-- A branch lies at least as deep as its root. -/
theorem not_under_of_length (h : place.2.length < branch.2.length) : ¬ Under branch place := fun hunder =>
  absurd hunder.2.length_le (Nat.not_le.mpr h)

theorem length_below (place : ι × List κ) (k : κ) : (below place k).2.length = place.2.length + 1 :=
  length_append

theorem not_under_above (place : ι × List κ) (k : κ) : ¬ Under (below place k) place :=
  not_under_of_length (by rw [length_below]; omega)

theorem below_inj (h : below place k = below other j) : place = other ∧ k = j := by
  obtain ⟨hroot, hpath⟩ := Prod.mk.inj h
  obtain ⟨habove, hkey⟩ := append_inj' hpath rfl
  exact ⟨Prod.ext hroot habove, (List.cons.inj hkey).1⟩

end

/-! ## Bare nodes -/

section
variable {bears : γ → Prop}

/-- A node that bears nothing and has no branch. -/
def Bare (bears : γ → Prop) (tree : ι × List κ → Option γ) (place : ι × List κ) : Prop :=
  (∃ c, tree place = some c ∧ ¬ bears c) ∧ ∀ k, tree (below place k) = none

/-- A node that bears nothing and has no branch but the one at a key. -/
def HoldsOnly (bears : γ → Prop) (tree : ι × List κ → Option γ) (place : ι × List κ) (key : κ) : Prop :=
  (∃ c, tree place = some c ∧ ¬ bears c) ∧ ∀ k, k ≠ key → tree (below place k) = none

/-- No node below the roots is bare. -/
def Alive (bears : γ → Prop) (roots : ι → Prop) (tree : ι × List κ → Option γ) : Prop :=
  ∀ place, roots place.1 → ¬ Bare bears tree place

variable {roots : ι → Prop} {before mid after : ι × List κ → Option γ} {holder host up place : ι × List κ}
  {key leaf : κ}

/-- A node that is not bare and bears nothing has a branch. -/
theorem exists_below_of_not_bare {c : γ} (h : ¬ Bare bears before place) (hc : before place = some c)
    (hbears : ¬ bears c) : ∃ k, before (below place k) ≠ none := by
  by_contra hno
  push Not at hno
  exact h ⟨⟨c, hc, hbears⟩, hno⟩

/-! ## A branch taken out -/

/-- Taking out a branch, with all the bare nodes there were, leaves bare the node that held
it if that held nothing else. -/
theorem bare_cut [DecidableEq ι] [DecidableEq κ]
    (hcut : ∀ place, after place = if Under (below holder key) place then none else before place)
    (halive : ∀ place, roots place.1 → Bare bears before place → Under (below holder key) place)
    (hroot : roots place.1) :
    Bare bears after place ↔ place = holder ∧ HoldsOnly bears before holder key := by
  constructor
  · rintro ⟨⟨c, hc, hbears⟩, hno⟩
    rw [hcut] at hc
    split_ifs at hc with hunder
    have hnot : ¬ Bare bears before place := fun hbare => hunder (halive place hroot hbare)
    -- whatever branch the node had was the one that went
    have hgone : ∀ k, before (below place k) ≠ none → below holder key = below place k := by
      intro k hk
      have hnone := hno k
      rw [hcut] at hnone
      split_ifs at hnone with hbelow
      · exact (under_below.mp hbelow).resolve_left hunder
      · exact absurd hnone hk
    obtain ⟨k, hk⟩ := exists_below_of_not_bare hnot hc hbears
    obtain ⟨rfl, rfl⟩ := below_inj (hgone k hk)
    refine ⟨rfl, ⟨c, hc, hbears⟩, fun j hj => ?_⟩
    by_contra hjs
    exact hj (below_inj (hgone j hjs)).2.symm
  · rintro ⟨rfl, ⟨c, hc, hbears⟩, honly⟩
    refine ⟨⟨c, ?_, hbears⟩, fun k => ?_⟩
    · rw [hcut, if_neg (not_under_above place key), hc]
    · rw [hcut]
      split_ifs with hunder
      · rfl
      · apply honly
        rintro rfl
        exact hunder (under_refl _)

/-- A tree in which one node may be bare, once that node is out. -/
theorem bare_collapsed [DecidableEq ι] [DecidableEq κ] {P : Prop}
    (hmid : ∀ place, roots place.1 → (Bare bears mid place ↔ place = below up key ∧ P))
    (hcut : P → ∀ place, after place = if Under (below up key) place then none else mid place)
    (hstay : ¬ P → ∀ place, after place = mid place) (hroot : roots place.1) :
    Bare bears after place ↔ place = up ∧ P ∧ HoldsOnly bears mid up key := by
  by_cases hP : P
  · have hbare : ∀ place, roots place.1 → Bare bears mid place → Under (below up key) place := by
      intro place hplace hbare
      rw [((hmid place hplace).mp hbare).1]
      exact under_refl _
    rw [bare_cut (hcut hP) hbare hroot]
    exact ⟨fun h => ⟨h.1, hP, h.2⟩, fun h => ⟨h.1, h.2.2⟩⟩
  · have hsame : after = mid := funext (hstay hP)
    rw [hsame, hmid place hroot]
    exact ⟨fun h => absurd h.2 hP, fun h => absurd h.2.1 hP⟩

/-! ## A branch put elsewhere -/

section
variable (h : Relocated before after (below holder key) (below host leaf))
include h

/-- Putting a branch elsewhere leaves bare the node that held it if that held nothing else and
is not where the branch went. -/
theorem Relocated.bare_iff (halive : Alive bears roots before) (hthere : before (below holder key) ≠ none)
    (hholder : roots holder.1) (hroot : roots place.1) :
    Bare bears after place ↔ place = holder ∧ holder ≠ host ∧ HoldsOnly bears before holder key := by
  have hput : after (below host leaf) ≠ none := by
    have hmoved := h.moved []
    rw [append_nil, append_nil] at hmoved
    exact fun hnone => hthere (hmoved.symm.trans hnone)
  constructor
  · rintro ⟨⟨c, hc, hbears⟩, hno⟩
    by_cases htarget : Under (below host leaf) place
    -- what stands here stood in the branch, with the same branches
    · obtain ⟨rest, rfl⟩ := htarget.split
      rw [h.moved] at hc
      have hwas := halive ((below holder key).1, (below holder key).2 ++ rest) hholder
      obtain ⟨k, hk⟩ := exists_below_of_not_bare hwas hc hbears
      have hmoved := h.moved (rest ++ [k])
      rw [← append_assoc, ← append_assoc] at hmoved
      exact absurd ((hmoved.symm).trans (hno k)) hk
    · have hsource : ¬ Under (below holder key) place := by
        intro hunder
        rw [h.gone hunder htarget] at hc
        exact nomatch hc
      rw [h.left hsource htarget] at hc
      -- whatever hung here is the branch that went
      have hgone : ∀ k, before (below place k) ≠ none → below holder key = below place k := by
        intro k hk
        by_contra hne
        have hput' : ¬ Under (below host leaf) (below place k) := by
          intro hunder
          have heq := (under_below.mp hunder).resolve_left htarget
          exact hput (heq ▸ hno k)
        have hsource' : ¬ Under (below holder key) (below place k) := fun hunder =>
          hne ((under_below.mp hunder).resolve_left hsource)
        rw [← h.left hsource' hput'] at hk
        exact hk (hno k)
      obtain ⟨k, hk⟩ := exists_below_of_not_bare (halive place hroot) hc hbears
      obtain ⟨rfl, rfl⟩ := below_inj (hgone k hk)
      refine ⟨rfl, ?_, ⟨c, hc, hbears⟩, fun j hj => ?_⟩
      · rintro rfl
        exact hput (hno leaf)
      · by_contra hjs
        exact hj (below_inj (hgone j hjs)).2.symm
  · rintro ⟨rfl, hne, ⟨c, hc, hbears⟩, honly⟩
    have hsource := not_under_above place key
    have htarget : ¬ Under (below host leaf) place := by
      intro hunder
      obtain ⟨rest, heq⟩ := hunder.split
      have hfree := h.free rest (heq ▸ hsource)
      rw [← heq, hc] at hfree
      exact nomatch hfree
    refine ⟨⟨c, by rw [h.left hsource htarget, hc], hbears⟩, fun k => ?_⟩
    have hput' : ¬ Under (below host leaf) (below place k) := by
      intro hunder
      exact hne (below_inj ((under_below.mp hunder).resolve_left htarget)).1.symm
    by_cases hk : k = key
    · exact h.gone (hk ▸ under_refl _) hput'
    · have hsource' : ¬ Under (below place key) (below place k) := by
        intro hunder
        exact hk (below_inj ((under_below.mp hunder).resolve_left hsource)).2.symm
      rw [h.left hsource' hput', honly k hk]

end

/-- The node above the one that held the branch: it holds what it held, and the branch if that
went there. -/
theorem Relocated.holdsOnly_iff {child : κ}
    (h : Relocated before after (below (below up key) child) (below host leaf))
    (hthere : before (below (below up key) child) ≠ none) (hup : ¬ Under (below host leaf) up)
    (hleaf : host = up → leaf ≠ key) :
    HoldsOnly bears after up key ↔ host ≠ up ∧ HoldsOnly bears before up key := by
  have hlength : (below (below up key) child).2.length = up.2.length + 2 := by
    rw [length_below, length_below]
  have hsource : ¬ Under (below (below up key) child) up := not_under_of_length (by omega)
  have hsource' : ∀ k, ¬ Under (below (below up key) child) (below up k) := fun k =>
    not_under_of_length (by rw [length_below]; omega)
  have hsame : after up = before up := h.left hsource hup
  constructor
  · rintro ⟨⟨c, hc, hbears⟩, honly⟩
    have hne : host ≠ up := by
      intro heq
      have hmoved := h.moved []
      rw [append_nil, append_nil] at hmoved
      have hnone := honly leaf (hleaf heq)
      rw [← heq] at hnone
      exact hthere (hmoved.symm.trans hnone)
    refine ⟨hne, ⟨c, hsame ▸ hc, hbears⟩, fun k hk => ?_⟩
    have htarget : ¬ Under (below host leaf) (below up k) := fun hunder =>
      hne (below_inj ((under_below.mp hunder).resolve_left hup)).1
    rw [← h.left (hsource' k) htarget, honly k hk]
  · rintro ⟨hne, ⟨c, hc, hbears⟩, honly⟩
    refine ⟨⟨c, hsame ▸ hc, hbears⟩, fun k hk => ?_⟩
    have htarget : ¬ Under (below host leaf) (below up k) := fun hunder =>
      hne (below_inj ((under_below.mp hunder).resolve_left hup)).1
    rw [h.left (hsource' k) htarget, honly k hk]

/-! ## A branch taken from its holder -/

/-- Nothing stands below a place where nothing stands, but right below the roots. -/
def Rooted (tree : ι × List κ → Option γ) : Prop :=
  ∀ place k, tree (below place k) ≠ none → place.2 = [] ∨ tree place ≠ none

/-- A branch taken from the node that held it, and put below a host, if anywhere: what that
leaves bare, what it leaves as it was, and what the node above the holder then holds. -/
structure Taken (bears : γ → Prop) (roots : ι → Prop) (before after : ι × List κ → Option γ)
    (holder : ι × List κ) (key : κ) (host : ι × List κ) : Prop where
  bare : ∀ place, roots place.1 →
    (Bare bears after place ↔ place = holder ∧ HoldsOnly bears before holder key)
  kept : ∀ place, ¬ Under (below holder key) place → before place ≠ none → after place = before place
  above : ∀ up k, holder = below up k →
    (HoldsOnly bears after up k ↔ host ≠ up ∧ HoldsOnly bears before up k)

theorem Relocated.taken (h : Relocated before after (below holder key) (below host key))
    (hrooted : Rooted before) (halive : Alive bears roots before) (hthere : before (below holder key) ≠ none)
    (hfree : before (below host key) = none) (hroot : roots holder.1) :
    Taken bears roots before after holder key host := by
  have hne : holder ≠ host := by
    rintro rfl
    exact hthere hfree
  have hout : ∀ place, ¬ Under (below holder key) place → before place ≠ none → ¬ Under (below host key) place := by
    intro place hsource hplace htarget
    obtain ⟨rest, rfl⟩ := htarget.split
    exact hplace (h.free rest hsource)
  refine ⟨fun place hplace => ?_, fun place hsource hplace => h.left hsource (hout place hsource hplace),
    fun up k heq => ?_⟩
  · rw [h.bare_iff halive hthere hroot hplace]
    exact ⟨fun hbare => ⟨hbare.1, hbare.2.2⟩, fun hbare => ⟨hbare.1, hne, hbare.2⟩⟩
  · subst heq
    have hholder : before (below up k) ≠ none :=
      (hrooted _ _ hthere).resolve_left fun hnil => absurd (congrArg List.length hnil) (by simp [below])
    refine h.holdsOnly_iff hthere ?_ ?_
    · rcases hrooted _ _ hholder with hnil | hup
      · refine not_under_of_length ?_
        rw [length_below, hnil, length_nil]
        omega
      · refine hout up (not_under_of_length ?_) hup
        rw [length_below, length_below]
        omega
    · rintro rfl rfl
      exact hholder hfree

/-- The same for a branch that goes nowhere; the host went with it. -/
theorem taken_of_cut [DecidableEq ι] [DecidableEq κ]
    (hcut : ∀ place, after place = if Under (below holder key) place then none else before place)
    (halive : Alive bears roots before) (hhost : Under (below holder key) host) :
    Taken bears roots before after holder key host := by
  refine ⟨fun place hplace => ?_, fun place hsource _ => by rw [hcut, if_neg hsource], fun up k heq => ?_⟩
  · exact bare_cut hcut (fun other hother hbare => absurd hbare (halive other hother)) hplace
  · subst heq
    have hlength : (below (below up k) key).2.length = up.2.length + 2 := by
      rw [length_below, length_below]
    have hup : after up = before up := by
      rw [hcut, if_neg (not_under_of_length (by omega))]
    have hbelow : ∀ j, after (below up j) = before (below up j) := by
      intro j
      rw [hcut, if_neg (not_under_of_length (by rw [length_below]; omega))]
    have hne : host ≠ up := by
      rintro rfl
      exact not_under_of_length (by omega) hhost
    simp only [HoldsOnly, hup, hbelow]
    exact ⟨fun honly => ⟨hne, honly⟩, fun honly => honly.2⟩

/-- No node is bare in the end if the one that may be left so is not. -/
theorem alive_iff_of_bare {P : Prop} (hbare : ∀ place, roots place.1 → (Bare bears after place ↔ place = holder ∧ P))
    (hroot : roots holder.1) : Alive bears roots after ↔ ¬ P := by
  constructor
  · intro halive hP
    exact halive holder hroot ((hbare holder hroot).mpr ⟨rfl, hP⟩)
  · intro hP place hplace hnode
    exact hP ((hbare place hplace).mp hnode).2

/-- A holder that is taken out when it is left bare: the node above it may be left so. -/
theorem Taken.alive_collapsed [DecidableEq ι] [DecidableEq κ] {k : κ}
    (h : Taken bears roots before mid (below up k) key host)
    (hcut : Bare bears mid (below up k) → ∀ place, after place = if Under (below up k) place then none else mid place)
    (hstay : ¬ Bare bears mid (below up k) → ∀ place, after place = mid place) (hroot : roots up.1) :
    Alive bears roots after
      ↔ ¬ (HoldsOnly bears before (below up k) key ∧ host ≠ up ∧ HoldsOnly bears before up k) := by
  have hholder : Bare bears mid (below up k) ↔ HoldsOnly bears before (below up k) key := by
    rw [h.bare (below up k) hroot]
    exact ⟨fun hbare => hbare.2, fun hbare => ⟨rfl, hbare⟩⟩
  rw [hholder] at hcut hstay
  rw [← h.above up k rfl]
  exact alive_iff_of_bare (fun place hplace => bare_collapsed h.bare hcut hstay hplace) hroot

/-! ## A node put in, and a node dissolved -/

/-- A node put between a branch and the node that held it leaves nothing bare. -/
theorem alive_wrapped
    (hmoved : ∀ rest, after ((below holder key).1, (below holder key).2 ++ leaf :: rest)
      = before ((below holder key).1, (below holder key).2 ++ rest))
    (hgone : ∀ k rest, k ≠ leaf → after ((below holder key).1, (below holder key).2 ++ k :: rest) = none)
    (hleft : ∀ place, ¬ Under (below holder key) place → after place = before place)
    (hhost : after (below holder key) ≠ none) (hthere : before (below holder key) ≠ none)
    (halive : Alive bears roots before) : Alive bears roots after := by
  rintro place hroot ⟨⟨c, hc, hbears⟩, hno⟩
  by_cases hunder : Under (below holder key) place
  · obtain ⟨rest, rfl⟩ := hunder.split
    cases rest with
    | nil =>
      -- the new node holds the branch
      have hbranch := hmoved []
      rw [append_nil] at hbranch hno
      exact hthere (hbranch.symm.trans (hno leaf))
    | cons k rest =>
      by_cases hk : k = leaf
      · rw [hk, hmoved] at hc
        obtain ⟨j, hj⟩ := exists_below_of_not_bare (halive ((below holder key).1, (below holder key).2 ++ rest) hroot) hc hbears
        have hbranch := hmoved (rest ++ [j])
        rw [← append_assoc] at hbranch
        have hnone := hno j
        rw [hk] at hnone
        refine hj (hbranch.symm.trans ?_)
        rw [← hnone]
        show after (_, _ ++ leaf :: (rest ++ [j])) = after (_, (_ ++ leaf :: rest) ++ [j])
        rw [append_assoc, cons_append]
      · rw [hgone k rest hk] at hc
        exact nomatch hc
  · rw [hleft place hunder] at hc
    obtain ⟨k, hk⟩ := exists_below_of_not_bare (halive place hroot) hc hbears
    have hnone := hno k
    by_cases hbelow : Under (below holder key) (below place k)
    · have heq := (under_below.mp hbelow).resolve_left hunder
      exact hhost (heq ▸ hnone)
    · rw [hleft _ hbelow] at hnone
      exact hk hnone

/-- A node that gives its branches to the node above it, and stays only if it bears
something, leaves nothing bare. -/
theorem alive_dissolved {K : κ → Prop} {c : γ} (hnode : before (below up key) = some c)
    (hK : ∀ k, before (below (below up key) k) ≠ none → K k)
    (hrisen : ∀ {k} rest, K k → after (up.1, up.2 ++ k :: rest) = before (up.1, up.2 ++ key :: k :: rest))
    (hstays : ¬ K key → bears c → after (below up key) = some c)
    (hgoes : ¬ K key → ¬ bears c → after (below up key) = none) (hclash : K key → ¬ bears c)
    (hbare : ¬ K key → ∀ k rest, after (up.1, up.2 ++ key :: k :: rest) = none)
    (hleft : ∀ place, (∀ k rest, K k ∨ k = key → place ≠ (up.1, up.2 ++ k :: rest)) → after place = before place)
    (halive : Alive bears roots before) : Alive bears roots after := by
  rintro place hroot ⟨⟨d, hd, hbears⟩, hno⟩
  by_cases hnear : ∃ k rest, (K k ∨ k = key) ∧ place = (up.1, up.2 ++ k :: rest)
  · obtain ⟨k, rest, hk, rfl⟩ := hnear
    by_cases hrose : K k
    -- what rose has the branches it had
    · rw [hrisen rest hrose] at hd
      obtain ⟨j, hj⟩ := exists_below_of_not_bare (halive (up.1, up.2 ++ key :: k :: rest) hroot) hd hbears
      have hsame := hrisen (rest ++ [j]) hrose
      have hnone := hno j
      have hpath : ∀ l : List κ, up.2 ++ l ++ [j] = up.2 ++ (l ++ [j]) := fun l => append_assoc _ _ _
      rw [below, hpath] at hj hnone
      exact hj (hsame.symm.trans hnone)
    · obtain rfl := hk.resolve_left hrose
      cases rest with
      | nil =>
        by_cases hc : bears c
        · have hsame := (hstays hrose hc).symm.trans hd
          exact hbears (Option.some.inj hsame ▸ hc)
        · exact nomatch (hgoes hrose hc).symm.trans hd
      | cons j rest => exact nomatch (hbare hrose j rest).symm.trans hd
  · have hfar : ∀ k rest, K k ∨ k = key → place ≠ (up.1, up.2 ++ k :: rest) := fun k rest hk heq =>
      hnear ⟨k, rest, hk, heq⟩
    rw [hleft place hfar] at hd
    by_cases hup : place = up
    -- the node above has the branches that rose, or the node itself
    · subst hup
      by_cases hc : bears c
      · have hkey : ¬ K key := fun hkey => hclash hkey hc
        exact nomatch (hstays hkey hc).symm.trans (hno key)
      · obtain ⟨k, hk⟩ := exists_below_of_not_bare (halive (below place key) hroot) hnode hc
        have hsame := hrisen [] (hK k hk)
        have hpath : place.2 ++ key :: [k] = place.2 ++ [key] ++ [k] := (append_assoc place.2 [key] [k]).symm
        rw [hpath] at hsame
        exact hk (hsame.symm.trans (hno k))
    · obtain ⟨j, hj⟩ := exists_below_of_not_bare (halive place hroot) hd hbears
      have hnone := hno j
      rw [hleft] at hnone
      · exact hj hnone
      · intro k rest hk heq
        obtain ⟨hr, hpath⟩ := Prod.mk.inj heq
        rcases eq_nil_or_concat rest with rfl | ⟨rest, last, rfl⟩
        · exact hup (Prod.ext hr (append_inj' hpath rfl).1)
        · rw [concat_eq_append] at hpath
          have hsplit : place.2 ++ [j] = (up.2 ++ k :: rest) ++ [last] := by
            rw [append_assoc, cons_append]
            exact hpath
          exact hfar k rest hk (Prod.ext hr (append_inj' hsplit rfl).1)

end

end Moves
