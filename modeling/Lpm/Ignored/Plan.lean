/-
Which way each ignored file goes between two computers.

What the two last agreed on tells which side moved. A file that only one side changed goes
from there; one that both changed is left for the user, unless the user has said which
version to keep; and one that a side has deleted since they agreed is left alone.
-/
import Lpm.Lib.Keyed
import Mathlib.Data.List.Dedup
import Mathlib.Data.String.Basic

set_option autoImplicit false

open Keyed

namespace Lpm.Ignored

open List Option

structure FileRec where
  path : String
  size : ℕ
  mtime : ℕ
  digest : String
  exec : Bool
  link : Option String
  deriving DecidableEq, Repr

/-- Which version one round keeps where the two computers differ. -/
inductive Prefer where
  | Newest
  | Here
  | There
  deriving DecidableEq, Repr

/-- Which version Sync keeps: the newest, this Mac's, or one other computer's. -/
inductive Choice where
  | Newest
  | Here
  | Peer (slug : String)
  deriving DecidableEq, Repr

/-- The word the rounds go by, but the one with the picked computer. -/
def each_round : Option Choice → Option Prefer
  | none => none
  | some .Newest => some .Newest
  | some _ => some .Here

/-- The order the computers are settled in, each with the word its round goes by. A picked
computer goes first. -/
def order (slugs : List String) (choice : Option Choice) : List (ℕ × Option Prefer) :=
  let first := match choice with
    | some (.Peer s) => slugs.findIdx? (· = s)
    | _ => none
  let rest := (List.range slugs.length).filter fun i => some i ≠ first
  (first.map fun i => (i, some Prefer.There)).toList ++ rest.map fun i => (i, each_round choice)

structure Plan where
  push : List FileRec
  pull : List FileRec
  conflicts : List String
  agreed : List (String × String)
  deriving DecidableEq, Repr

def Plan.default : Plan := { push := [], pull := [], conflicts := [], agreed := [] }

variable (prefer : Option Prefer)

/-- For a file that differs, whether this Mac's version is kept. -/
def keep_here (agreed : Option String) (a b : FileRec) : Option Bool :=
  match prefer with
  | some .Here => some true
  | some .There => some false
  | _ =>
    if agreed = some a.digest then some false
    else if agreed = some b.digest then some true
    else match prefer with
      | some .Newest => some (a.mtime ≥ b.mtime)
      | _ => none

/-- What is to be done with one file. -/
inductive Verdict where
  | agree (digest : String)
  | push (f : FileRec)
  | pull (f : FileRec)
  | conflict
  | leave
  deriving DecidableEq, Repr

def verdict (agreed : Option String) : Option FileRec → Option FileRec → Verdict
  | some a, some b =>
    if a.digest = b.digest then .agree a.digest
    else match keep_here prefer agreed a b with
      | some true => .push a
      | some false => .pull b
      | none => .conflict
  | some a, none => if agreed ≠ some a.digest then .push a else .leave
  | none, some b => if agreed ≠ some b.digest then .pull b else .leave
  | none, none => .leave

def Plan.add (out : Plan) (p : String) : Verdict → Plan
  | .agree digest => { out with agreed := out.agreed ++ [(p, digest)] }
  | .push f => { out with push := out.push ++ [f] }
  | .pull f => { out with pull := out.pull ++ [f] }
  | .conflict => { out with conflicts := out.conflicts ++ [p] }
  | .leave => out

/-- The paths on either side, each once and in order. -/
def all_paths (here there : List FileRec) : List String :=
  (here.map FileRec.path ++ there.map FileRec.path).dedup.mergeSort (· ≤ ·)

/-- The files of a side by path. -/
def by_path (files : List FileRec) : String → Option FileRec := collected FileRec.path files

def verdict_at (here there : List FileRec) (last : String → Option String) (prefer : Option Prefer)
    (p : String) : Verdict :=
  verdict prefer (last p) (by_path here p) (by_path there p)

def plan (here there : List FileRec) (last : String → Option String) (prefer : Option Prefer) : Plan :=
  (all_paths here there).foldl (fun out p => out.add p (verdict_at here there last prefer p))
    Plan.default

/-- The same word from the other side. -/
def Prefer.mirror : Prefer → Prefer
  | .Newest => .Newest
  | .Here => .There
  | .There => .Here

/-! ## What a plan holds -/

section
variable {here there : List FileRec} {last : String → Option String} {prefer : Option Prefer}
variable {p : String} {f : FileRec} {a b : FileRec}

theorem by_path_path (h : by_path here p = some f) : f.path = p := get_key h

theorem by_path_ne_none_iff : by_path here p ≠ none ↔ p ∈ here.map FileRec.path := by
  rw [by_path, collected, Ne, get_eq_none_iff, not_not, map_reverse, mem_reverse]

theorem mem_all_paths : p ∈ all_paths here there ↔ by_path here p ≠ none ∨ by_path there p ≠ none := by
  rw [all_paths, (mergeSort_perm _ _).mem_iff, mem_dedup, mem_append,
    by_path_ne_none_iff, by_path_ne_none_iff]

theorem nodup_all_paths : (all_paths here there).Nodup :=
  (mergeSort_perm _ _).nodup_iff.mpr (nodup_dedup _)

def Verdict.pushed : Verdict → Option FileRec
  | .push f => some f
  | _ => none

def Verdict.pulled : Verdict → Option FileRec
  | .pull f => some f
  | _ => none

def Verdict.agreed : Verdict → Option String
  | .agree digest => some digest
  | _ => none

/-- A plan is the verdicts of all paths, each in its own list. -/
theorem plan_eq (here there : List FileRec) (last : String → Option String) (prefer : Option Prefer) :
    plan here there last prefer =
      { push := (all_paths here there).filterMap fun p => (verdict_at here there last prefer p).pushed
        pull := (all_paths here there).filterMap fun p => (verdict_at here there last prefer p).pulled
        conflicts := (all_paths here there).filter fun p =>
          verdict_at here there last prefer p = .conflict
        agreed := (all_paths here there).filterMap fun p =>
          (verdict_at here there last prefer p).agreed.map fun d => (p, d) } := by
  have hfold : ∀ (v : String → Verdict) (ps : List String) (out : Plan),
      ps.foldl (fun out p => out.add p (v p)) out =
        { push := out.push ++ ps.filterMap fun p => (v p).pushed
          pull := out.pull ++ ps.filterMap fun p => (v p).pulled
          conflicts := out.conflicts ++ ps.filter fun p => v p = .conflict
          agreed := out.agreed ++ ps.filterMap fun p => (v p).agreed.map fun d => (p, d) } := by
    intro v ps
    induction ps with
    | nil =>
      intro out
      simp
    | cons p ps ih =>
      intro out
      rw [foldl_cons, ih]
      cases hv : v p <;> simp [Plan.add, hv, Verdict.pushed, Verdict.pulled, Verdict.agreed]
  rw [plan, hfold]
  simp [Plan.default]

variable {agreed : Option String} {x y : Option FileRec}

theorem verdict_push (h : verdict prefer agreed x y = .push f) :
    x = some f ∧ ∀ b, y = some b → f.digest ≠ b.digest ∧ keep_here prefer agreed f b = some true := by
  rcases x with _ | a <;> rcases y with _ | b
  · cases h
  · rw [verdict] at h
    split_ifs at h
  · rw [verdict] at h
    split_ifs at h
    cases h
    exact ⟨rfl, fun b hb => nomatch hb⟩
  · rw [verdict] at h
    split_ifs at h with hdigest
    split at h
    next hkeep =>
      cases h
      refine ⟨rfl, fun b' hb => ?_⟩
      cases hb
      exact ⟨hdigest, hkeep⟩
    · cases h
    · cases h

theorem verdict_pull (h : verdict prefer agreed x y = .pull f) :
    y = some f ∧ (x = none → agreed ≠ some f.digest) ∧
      ∀ a, x = some a → a.digest ≠ f.digest ∧ keep_here prefer agreed a f = some false := by
  rcases x with _ | a <;> rcases y with _ | b
  · cases h
  · rw [verdict] at h
    split_ifs at h with hagreed
    cases h
    exact ⟨rfl, fun _ => hagreed, fun a ha => nomatch ha⟩
  · rw [verdict] at h
    split_ifs at h
  · rw [verdict] at h
    split_ifs at h with hdigest
    split at h
    · cases h
    next hkeep =>
      cases h
      refine ⟨rfl, (fun hnone => nomatch hnone), fun a' ha => ?_⟩
      cases ha
      exact ⟨hdigest, hkeep⟩
    · cases h

theorem verdict_agree {d : String} (h : verdict prefer agreed x y = .agree d) : ∃ a, x = some a := by
  rcases x with _ | a <;> rcases y with _ | b
  · cases h
  · rw [verdict] at h
    split_ifs at h
  · exact ⟨a, rfl⟩
  · exact ⟨a, rfl⟩

theorem verdict_conflict_iff : verdict prefer agreed x y = .conflict ↔
    ∃ a b, x = some a ∧ y = some b ∧ a.digest ≠ b.digest ∧ keep_here prefer agreed a b = none := by
  constructor
  · intro h
    rcases x with _ | a <;> rcases y with _ | b
    · cases h
    · rw [verdict] at h
      split_ifs at h
    · rw [verdict] at h
      split_ifs at h
    · rw [verdict] at h
      split_ifs at h with hdigest
      split at h
      · cases h
      · cases h
      next hkeep =>
        exact ⟨a, b, rfl, rfl, hdigest, hkeep⟩
  · rintro ⟨a, b, rfl, rfl, hdigest, hkeep⟩
    rw [verdict, if_neg hdigest, hkeep]

theorem mem_push : f ∈ (plan here there last prefer).push ↔
    verdict_at here there last prefer f.path = .push f := by
  have hpushed : ∀ v : Verdict, v.pushed = some f ↔ v = .push f := by
    intro v
    cases v <;> simp [Verdict.pushed]
  rw [plan_eq, mem_filterMap]
  simp only [hpushed]
  constructor
  · rintro ⟨p, -, hp⟩
    rwa [by_path_path (verdict_push hp).1]
  · intro hp
    refine ⟨f.path, mem_all_paths.mpr (.inl ?_), hp⟩
    rw [(verdict_push hp).1]
    exact some_ne_none f

theorem mem_pull : f ∈ (plan here there last prefer).pull ↔
    verdict_at here there last prefer f.path = .pull f := by
  have hpulled : ∀ v : Verdict, v.pulled = some f ↔ v = .pull f := by
    intro v
    cases v <;> simp [Verdict.pulled]
  rw [plan_eq, mem_filterMap]
  simp only [hpulled]
  constructor
  · rintro ⟨p, -, hp⟩
    rwa [by_path_path (verdict_pull hp).1]
  · intro hp
    refine ⟨f.path, mem_all_paths.mpr (.inr ?_), hp⟩
    rw [(verdict_pull hp).1]
    exact some_ne_none f

theorem mem_conflicts : p ∈ (plan here there last prefer).conflicts ↔
    verdict_at here there last prefer p = .conflict := by
  rw [plan_eq, mem_filter, decide_eq_true_eq, and_iff_right_iff_imp]
  intro hp
  obtain ⟨a, b, ha, -⟩ := verdict_conflict_iff.mp hp
  exact mem_all_paths.mpr (.inl (by rw [ha]; exact some_ne_none a))

theorem mem_agreed {d : String} : (p, d) ∈ (plan here there last prefer).agreed ↔
    verdict_at here there last prefer p = .agree d := by
  have hagreed : ∀ v : Verdict, v.agreed = some d ↔ v = .agree d := by
    intro v
    cases v <;> simp [Verdict.agreed]
  rw [plan_eq, mem_filterMap]
  simp only [map_eq_some_iff, Prod.mk.injEq]
  constructor
  · rintro ⟨q, -, d', hd, rfl, rfl⟩
    exact (hagreed _).mp hd
  · intro hp
    obtain ⟨a, ha⟩ := verdict_agree hp
    refine ⟨p, mem_all_paths.mpr (.inl ?_), d, (hagreed _).mpr hp, rfl, rfl⟩
    rw [ha]
    exact some_ne_none a

/-- The files that go one way have paths of their own. -/
theorem nodup_filterMap_path {g : String → Option FileRec} {ps : List String} (h : ps.Nodup)
    (hg : ∀ p f, g p = some f → f.path = p) : ((ps.filterMap g).map FileRec.path).Nodup := by
  have hmap : (ps.filterMap g).map FileRec.path = ps.filter fun p => (g p).isSome := by
    rw [map_filterMap, ← filterMap_eq_filter]
    refine filterMap_congr fun p _ => ?_
    cases hp : g p with
    | none => simp [Option.guard, hp]
    | some f => simp [Option.guard, hp, hg p f hp]
  rw [hmap]
  exact h.filter _

theorem nodup_push : ((plan here there last prefer).push.map FileRec.path).Nodup := by
  rw [plan_eq]
  refine nodup_filterMap_path nodup_all_paths fun p f hf => ?_
  cases hv : verdict_at here there last prefer p <;> rw [hv] at hf <;> cases hf
  exact by_path_path (verdict_push hv).1

theorem nodup_pull : ((plan here there last prefer).pull.map FileRec.path).Nodup := by
  rw [plan_eq]
  refine nodup_filterMap_path nodup_all_paths fun p f hf => ?_
  cases hv : verdict_at here there last prefer p <;> rw [hv] at hf <;> cases hf
  exact by_path_path (verdict_pull hv).1

/-! ## Whose version is kept -/

theorem keep_here_newest : keep_here (some .Newest) agreed a b =
    if agreed = some a.digest then some false
    else if agreed = some b.digest then some true else some (decide (a.mtime ≥ b.mtime)) := rfl

theorem keep_here_unasked : keep_here none agreed a b =
    if agreed = some a.digest then some false
    else if agreed = some b.digest then some true else none := rfl

theorem keep_here_true (h : keep_here prefer agreed a b = some true) :
    agreed = some b.digest ∨ prefer = some .Here ∨ prefer = some .Newest ∧ b.mtime ≤ a.mtime := by
  rcases prefer with _ | _ | _ | _
  · rw [keep_here_unasked] at h
    split_ifs at h with ha hb
    · cases h
    · exact .inl hb
  · rw [keep_here_newest] at h
    split_ifs at h with ha hb
    · cases h
    · exact .inl hb
    · exact .inr (.inr ⟨rfl, of_decide_eq_true (some.inj h)⟩)
  · exact .inr (.inl rfl)
  · cases h

theorem keep_here_false (h : keep_here prefer agreed a b = some false) :
    agreed = some a.digest ∨ prefer = some .There ∨ prefer = some .Newest ∧ a.mtime < b.mtime := by
  rcases prefer with _ | _ | _ | _
  · rw [keep_here_unasked] at h
    split_ifs at h with ha hb
    · exact .inl ha
    · cases h
  · rw [keep_here_newest] at h
    split_ifs at h with ha hb
    · exact .inl ha
    · cases h
    · exact .inr (.inr ⟨rfl, not_le.mp (of_decide_eq_false (some.inj h))⟩)
  · cases h
  · exact .inr (.inl rfl)

theorem keep_here_none_iff : keep_here prefer agreed a b = none ↔
    prefer = none ∧ agreed ≠ some a.digest ∧ agreed ≠ some b.digest := by
  rcases prefer with _ | _ | _ | _
  · rw [keep_here_unasked]
    split_ifs with ha hb <;> simp [*]
  · rw [keep_here_newest]
    split_ifs <;> simp
  · simp [keep_here]
  · simp [keep_here]

/-- Both sides changed the file since they agreed, at the same moment, and the newest is to be
kept. -/
def Tie (prefer : Option Prefer) (agreed : Option String) (a b : FileRec) : Prop :=
  prefer = some .Newest ∧ agreed ≠ some a.digest ∧ agreed ≠ some b.digest ∧ a.mtime = b.mtime

/-- Without a tie the other side keeps the same version. -/
theorem keep_here_mirror (hdigest : a.digest ≠ b.digest) (htie : ¬Tie prefer agreed a b) :
    keep_here (prefer.map Prefer.mirror) agreed b a = (keep_here prefer agreed a b).map (!·) := by
  have hnot : agreed = some a.digest → agreed ≠ some b.digest := by
    rintro rfl heq
    exact hdigest (some.inj heq)
  rcases prefer with _ | _ | _ | _
  · rw [map_none, keep_here_unasked, keep_here_unasked]
    by_cases ha : agreed = some a.digest
    · rw [if_neg (hnot ha), if_pos ha, if_pos ha]
      rfl
    · rw [if_neg ha, if_neg ha]
      split_ifs <;> rfl
  · change keep_here (some .Newest) agreed b a = _
    rw [keep_here_newest, keep_here_newest]
    by_cases ha : agreed = some a.digest
    · rw [if_neg (hnot ha), if_pos ha, if_pos ha]
      rfl
    · rw [if_neg ha, if_neg ha]
      split_ifs with hb
      · rfl
      · have hmtime : a.mtime ≠ b.mtime := fun heq => htie ⟨rfl, ha, hb, heq⟩
        simp only [map_some, some.injEq, ge_iff_le, ← decide_not, decide_eq_decide]
        omega
  · rfl
  · rfl

/-- What a verdict comes to from the other side. -/
def Verdict.mirror : Verdict → Verdict
  | .push f => .pull f
  | .pull f => .push f
  | v => v

theorem verdict_mirror (htie : ∀ a b, x = some a → y = some b → ¬Tie prefer agreed a b) :
    verdict (prefer.map Prefer.mirror) agreed y x = (verdict prefer agreed x y).mirror := by
  rcases x with _ | a <;> rcases y with _ | b
  · rfl
  · rw [verdict, verdict]
    split_ifs <;> rfl
  · rw [verdict, verdict]
    split_ifs <;> rfl
  · rw [verdict, verdict]
    by_cases hdigest : a.digest = b.digest
    · rw [if_pos hdigest.symm, if_pos hdigest, hdigest]
      rfl
    · rw [if_neg (Ne.symm hdigest), if_neg hdigest, keep_here_mirror hdigest (htie a b rfl rfl)]
      rcases keep_here prefer agreed a b with _ | _ | _ <;> rfl

/-- In a tie both keep their own. -/
theorem keep_here_tie (htie : Tie prefer agreed a b) : keep_here prefer agreed a b = some true := by
  obtain ⟨rfl, ha, hb, hmtime⟩ := htie
  rw [keep_here_newest, if_neg ha, if_neg hb, decide_eq_true hmtime.ge]

end

end Lpm.Ignored
