/-
Held Dones over any order of steps: each goes out at most once, whatever happens, and
when one can go out over a report that came later.

A token stands for one hold from the moment it is drawn, so the tokens that are held, in
a thread's hands or published are all different. Whether a Done may go out is decided by
two counts that are compared at one moment and used at a later one; the threads that
stand between the two are the ones a report must not meet.
-/
import Lpm.Status.DoneHold
import Mathlib.Data.List.Nodup
import Mathlib.Data.List.Count

set_option autoImplicit false

namespace Lpm.Status

open List Option Function

open Transition

/-! ## The holds as a map -/

section
variable {held : List (Id × Pending)} {id other : Id} {token k : ℕ} {p q : Pending}

theorem lookup_remove_self : (remove id held).lookup id = none := by
  induction held with
  | nil => rfl
  | cons entry held ih =>
    unfold remove at ih ⊢
    by_cases h : entry.1 = id
    · rw [filter_cons_of_neg (by simpa using h)]
      exact ih
    · rw [filter_cons_of_pos (by simpa using h), lookup_cons]
      have hne : (id == entry.1) = false := by simpa using Ne.symm h
      rw [hne]
      exact ih

theorem lookup_remove_other (h : other ≠ id) : (remove id held).lookup other = held.lookup other := by
  induction held with
  | nil => rfl
  | cons entry held ih =>
    unfold remove at ih ⊢
    by_cases hentry : entry.1 = id
    · have hne : (other == entry.1) = false := by
        rw [hentry]
        simpa using h
      rw [filter_cons_of_neg (by simpa using hentry), lookup_cons, hne]
      exact ih
    · rw [filter_cons_of_pos (by simpa using hentry), lookup_cons, lookup_cons, ih]

theorem lookup_insert_self : (insert id p held).lookup id = some p := by
  rw [insert, lookup_cons, beq_self_eq_true]

theorem lookup_insert_other (h : other ≠ id) :
    (insert id p held).lookup other = held.lookup other := by
  have hne : (other == id) = false := by simpa using h
  rw [insert, lookup_cons, hne]
  exact lookup_remove_other h

theorem lookup_extend : (extend id token held).lookup other
    = (held.lookup other).map fun p =>
      if other = id ∧ p.token = token then { p with extended := true } else p := by
  induction held with
  | nil => rfl
  | cons entry held ih =>
    have hcons : extend id token (entry :: held)
        = (if entry.1 = id ∧ entry.2.token = token then (id, { entry.2 with extended := true })
            else entry) :: extend id token held := rfl
    have hkey : (if entry.1 = id ∧ entry.2.token = token then (id, { entry.2 with extended := true })
        else entry).1 = entry.1 := by
      split_ifs with h
      · exact h.1.symm
      · rfl
    rw [hcons, lookup_cons, lookup_cons, hkey]
    by_cases h : other = entry.1
    · rw [h, beq_self_eq_true]
      simp only [map_some]
      split_ifs
      · rfl
      · rfl
    · have hne : (other == entry.1) = false := by simpa using h
      rw [hne]
      exact ih

theorem holding_eq_some : holding held id token = some p ↔ held.lookup id = some p ∧ p.token = token := by
  rw [holding, filter_eq_some_iff, decide_eq_true_iff]

theorem mem_of_lookup (h : held.lookup id = some p) : (id, p) ∈ held := by
  induction held with
  | nil => simp at h
  | cons entry held ih =>
    rw [lookup_cons] at h
    by_cases heq : id = entry.1
    · rw [heq, beq_self_eq_true] at h
      cases h
      rw [heq]
      exact mem_cons_self ..
    · have hne : (id == entry.1) = false := by simpa using heq
      rw [hne] at h
      exact mem_cons_of_mem _ (ih h)

/-- A hold of another token, of another id or taken away is not there. -/
theorem holding_remove (h : holding (remove id held) other token = some p) :
    holding held other token = some p := by
  rw [holding_eq_some] at h ⊢
  by_cases heq : other = id
  · rw [heq, lookup_remove_self] at h
    exact absurd h.1 (by simp)
  · rw [lookup_remove_other heq] at h
    exact h

theorem holding_insert (h : holding (insert id p held) other token = some q) (hne : p.token ≠ token) :
    holding held other token = some q := by
  rw [holding_eq_some] at h ⊢
  by_cases heq : other = id
  · rw [heq, lookup_insert_self] at h
    obtain rfl := some.inj h.1
    exact absurd h.2 hne
  · rw [lookup_insert_other heq] at h
    exact h

theorem holding_extend {token' : ℕ} (h : holding (extend id token held) other token' = some q) :
    ∃ p, holding held other token' = some p := by
  rw [holding_eq_some, lookup_extend, map_eq_some_iff] at h
  obtain ⟨⟨p, hp, rfl⟩, htoken⟩ := h
  refine ⟨p, holding_eq_some.mpr ⟨hp, ?_⟩⟩
  split_ifs at htoken
  · exact htoken
  · exact htoken

/-! ## Tokens -/

theorem count_cons_token (entry : Id × Pending) (held : List (Id × Pending)) (k : ℕ) :
    ((entry :: held).map fun entry => entry.2.token).count k
      = (held.map fun entry => entry.2.token).count k + [entry.2.token].count k := by
  rw [map_cons, ← singleton_append, count_append, Nat.add_comm]

theorem count_remove (h : held.lookup id = some p) (k : ℕ) :
    ((remove id held).map fun entry => entry.2.token).count k + [p.token].count k
      ≤ (held.map fun entry => entry.2.token).count k := by
  induction held with
  | nil => simp at h
  | cons entry held ih =>
    rw [lookup_cons] at h
    rw [count_cons_token]
    by_cases heq : entry.1 = id
    · rw [heq, beq_self_eq_true] at h
      cases h
      have hsub : ((remove id (entry :: held)).map fun entry => entry.2.token).Sublist
          (held.map fun entry => entry.2.token) := by
        rw [remove, filter_cons_of_neg (by simpa using heq)]
        exact filter_sublist.map _
      exact Nat.add_le_add_right (hsub.count_le k) _
    · have hne : (id == entry.1) = false := by simpa using Ne.symm heq
      rw [hne] at h
      have hrest := ih h
      have hkeep : remove id (entry :: held) = entry :: remove id held :=
        filter_cons_of_pos (by simpa using heq)
      rw [hkeep, count_cons_token]
      omega

theorem count_remove_le (k : ℕ) :
    ((remove id held).map fun entry => entry.2.token).count k
      ≤ (held.map fun entry => entry.2.token).count k :=
  (filter_sublist.map _).count_le k

theorem tokens_extend : (extend id token held).map (fun entry => entry.2.token)
    = held.map fun entry => entry.2.token := by
  rw [extend, List.map_map]
  apply map_congr_left
  intro entry _
  simp only [comp_apply]
  split_ifs
  · rfl
  · rfl

end

/-- The token of the hold a thread has in its hands. -/
def Thread.in_hand : Thread → List ℕ
  | .entering _ p | .ending _ p | .releasing _ p => [p.token]
  | _ => []

variable (sh : Shared) (threads : List Thread)

/-- The tokens that are held, published or in the hands of some threads. -/
def tokens : List ℕ :=
  sh.held.map (fun entry => entry.2.token) ++ sh.published.map Publication.token
    ++ threads.flatMap Thread.in_hand

/-- Every token stands for one hold, and was drawn. -/
structure Sound (s : State) : Prop where
  once : ∀ k, (tokens s.sh s.threads).count k ≤ 1
  below : ∀ k ∈ tokens s.sh s.threads, k < s.sh.next

theorem Sound.of_count {s s' : State} (h : Sound s) (hnext : s.sh.next ≤ s'.sh.next)
    (hcount : ∀ k, (tokens s'.sh s'.threads).count k ≤ (tokens s.sh s.threads).count k) : Sound s' where
  once k := Nat.le_trans (hcount k) (h.once k)
  below k hk := by
    have hpos : 0 < (tokens s.sh s.threads).count k :=
      Nat.lt_of_lt_of_le (count_pos_iff.mpr hk) (hcount k)
    exact Nat.lt_of_lt_of_le (h.below k (count_pos_iff.mp hpos)) hnext

theorem count_tokens (k : ℕ) :
    (tokens sh threads).count k = (sh.held.map fun entry => entry.2.token).count k
      + (sh.published.map Publication.token).count k + (threads.flatMap Thread.in_hand).count k := by
  rw [tokens, count_append, count_append]

/-- The tokens around some threads are counted beside theirs. -/
theorem count_around (before behind after : List Thread) (k : ℕ) :
    (tokens sh (before ++ behind ++ after)).count k = (tokens sh behind).count k
      + (before.flatMap Thread.in_hand).count k + (after.flatMap Thread.in_hand).count k := by
  rw [count_tokens, count_tokens, flatMap_append, flatMap_append, count_append, count_append]
  omega

/-- A thread and the others around it. -/
theorem split_at {threads : List Thread} {i : ℕ} {t : Thread} (h : threads[i]? = some t) :
    threads = threads.take i ++ [t] ++ threads.drop (i + 1) := by
  induction threads generalizing i with
  | nil => simp at h
  | cons first threads ih =>
    cases i with
    | zero =>
      obtain rfl : first = t := by simpa using h
      rfl
    | succ i => exact congrArg (first :: ·) (ih (by simpa using h))

/-- What a thread leaves behind holds no token it had not, or one that was just drawn. -/
theorem advance_tokens (seen : Seen) (t : Thread) (k : ℕ) :
    (tokens (t.advance sh seen).1 (t.advance sh seen).2).count k ≤ (tokens sh [t]).count k
      ∨ k = sh.next ∧ (t.advance sh seen).1.next = sh.next + 1
        ∧ (tokens (t.advance sh seen).1 (t.advance sh seen).2).count k
          ≤ (tokens sh [t]).count k + 1 := by
  rw [count_tokens, count_tokens]
  cases t with
  | reporting id own done why =>
    -- the one step that draws a token
    by_cases hk : k = sh.next
    · right
      refine ⟨hk, rfl, ?_⟩
      simp [Thread.advance, Thread.in_hand, count_singleton]
      split_ifs <;> omega
    · left
      simp [Thread.advance, Thread.in_hand, Ne.symm hk]
  | entering id p =>
    left
    have hinsert := count_cons_token (id, p) (remove id sh.held) k
    simp only at hinsert
    have hremove := @count_remove_le sh.held id k
    simp only [Thread.advance, Thread.in_hand, insert, flatMap_cons, flatMap_nil,
      append_nil, count_nil]
    omega
  | sleeping id token =>
    left
    rw [Thread.advance]
    rcases holding sh.held id token with _ | p
    · simp [Thread.in_hand]
    · simp [Thread.in_hand]
  | looking id p =>
    left
    simp only [Thread.advance]
    rcases verdict (observe id.2 p (sh.revs id) seen)
    · split_ifs <;> simp [Thread.in_hand]
    · simp [Thread.in_hand]
    · simp [Thread.in_hand]
  | extending id token =>
    left
    simp [Thread.advance, Thread.in_hand, tokens_extend]
  | dropping id token =>
    left
    rw [Thread.advance]
    have hremove := @count_remove_le sh.held id k
    rcases holding sh.held id token with _ | p
    · simp [Thread.in_hand]
    · simpa [Thread.in_hand] using hremove
  | taking id token =>
    left
    rw [Thread.advance]
    rcases hholding : holding sh.held id token with _ | p
    · simp [Thread.in_hand]
    -- the token goes from the holds into the thread's hands
    · have hremove := count_remove (holding_eq_some.mp hholding).1 k
      simp only [Thread.in_hand, flatMap_cons, flatMap_nil, append_nil, count_nil]
      omega
  | ending id p =>
    left
    rw [Thread.advance]
    split_ifs <;> simp [Thread.in_hand]
  | releasing id p =>
    left
    -- and from its hands to what is published
    simp only [Thread.advance, Thread.in_hand, map_append, map_singleton, count_append,
      flatMap_cons, flatMap_nil, append_nil, count_nil]
    omega

/-- No step makes a second copy of a token. -/
theorem Sound.step {s s' : State} {a : Action} (h : Sound s) (hstep : step s a = some s') :
    Sound s' := by
  cases a with
  | report id =>
    cases hstep
    exact ⟨h.once, h.below⟩
  | done id counts done why =>
    cases hstep
    refine h.of_count ?_ fun k => ?_
    · exact Nat.le_refl _
    rw [count_tokens, count_tokens, flatMap_append]
    simp [Thread.in_hand]
  | cancel id =>
    cases hstep
    refine h.of_count ?_ fun k => ?_
    · exact Nat.le_refl _
    have hremove := @count_remove_le s.sh.held id k
    rw [count_tokens, count_tokens]
    exact Nat.add_le_add_right (Nat.add_le_add_right hremove _) _
  | end_session id =>
    rw [Lpm.Status.step] at hstep
    rcases hlookup : s.sh.held.lookup id with _ | p
    · rw [hlookup] at hstep
      rw [← some.inj hstep]
      exact h
    · simp only [hlookup] at hstep
      cases hstep
      refine h.of_count ?_ fun k => ?_
      · exact Nat.le_refl _
      have hremove := count_remove hlookup k
      rw [count_tokens, count_tokens, flatMap_append, count_append]
      simp only [Thread.in_hand, flatMap_cons, flatMap_nil, append_nil]
      omega
  | advance i seen =>
    rw [Lpm.Status.step] at hstep
    rcases ht : s.threads[i]? with _ | t
    · rw [ht] at hstep
      exact absurd hstep (by simp)
    · simp only [ht] at hstep
      cases hstep
      -- the other threads hold what they held
      have hold : ∀ k, (tokens s.sh s.threads).count k = (tokens s.sh [t]).count k
          + ((s.threads.take i).flatMap Thread.in_hand).count k
          + ((s.threads.drop (i + 1)).flatMap Thread.in_hand).count k := by
        intro k
        conv_lhs => rw [split_at ht]
        exact count_around ..
      have hcount : ∀ k, (tokens (t.advance s.sh seen).1
          (s.threads.take i ++ (t.advance s.sh seen).2 ++ s.threads.drop (i + 1))).count k
            ≤ (tokens s.sh s.threads).count k
          ∨ k = s.sh.next ∧ (t.advance s.sh seen).1.next = s.sh.next + 1
            ∧ (tokens (t.advance s.sh seen).1
              (s.threads.take i ++ (t.advance s.sh seen).2 ++ s.threads.drop (i + 1))).count k
              ≤ (tokens s.sh s.threads).count k + 1 := by
        intro k
        have hadvance := advance_tokens s.sh seen t k
        rw [hold, count_around]
        omega
      -- the number drawn next is nowhere yet
      have hfresh : (tokens s.sh s.threads).count s.sh.next = 0 := by
        rw [count_eq_zero]
        exact fun hin => Nat.lt_irrefl _ (h.below _ hin)
      have hnext : s.sh.next ≤ (t.advance s.sh seen).1.next := by
        cases t with
        | reporting id own done why => exact Nat.le_succ _
        | entering id p => exact Nat.le_refl _
        | sleeping id token | dropping id token | taking id token =>
          rw [Thread.advance]
          split <;> exact Nat.le_refl _
        | looking id p =>
          simp only [Thread.advance]
          split <;> exact Nat.le_refl _
        | extending id token => exact Nat.le_refl _
        | ending id p =>
          rw [Thread.advance]
          split_ifs <;> exact Nat.le_refl _
        | releasing id p => exact Nat.le_refl _
      constructor
      · intro k
        rcases hcount k with hle | ⟨rfl, -, hle⟩
        · exact Nat.le_trans hle (h.once k)
        · rw [hfresh] at hle
          exact hle
      · intro k hk
        have hpos := count_pos_iff.mpr hk
        rcases hcount k with hle | ⟨rfl, hdrawn, -⟩
        · have hbefore := h.below k (count_pos_iff.mp (Nat.lt_of_lt_of_le hpos hle))
          exact Nat.lt_of_lt_of_le hbefore hnext
        · show s.sh.next < (t.advance s.sh seen).1.next
          omega

/-! ## Reports at the wrong moment -/

/-- A thread between the comparison of two counts and what it decides: a Done counted and
not yet entered with its count, a check that is going to publish a hold that is still
there, and a Done on its way out. -/
def Thread.exposed (held : List (Id × Pending)) (id : Id) : Thread → Prop
  | .reporting id' _ _ _ => id' = id
  | .taking id' token => id' = id ∧ (holding held id token).isSome
  | .releasing id' _ => id' = id
  | _ => False

/-- No report counts while a thread of its agent is exposed. -/
def Unhindered (s : State) : Action → Prop
  | .report id | .done id true _ _ => ∀ t ∈ s.threads, ¬ t.exposed s.sh.held id
  | _ => True

/-- A hold whose count is the number of its Done. `made` gives the count by the token. -/
structure Ok (made : ℕ → ℕ) (sh : Shared) (p : Pending) : Prop where
  own : p.rev = p.own
  made : made p.token = p.rev
  drawn : p.token < sh.next

/-- What a thread knows. `born` are the tokens that have been among the holds. -/
def Thread.Fresh (made : ℕ → ℕ) (born : ℕ → Prop) (sh : Shared) : Thread → Prop
  | .reporting id own _ _ => sh.revs id = own
  | .entering _ p => Ok made sh p ∧ ¬ born p.token
  | .sleeping _ token | .extending _ token | .dropping _ token => born token ∧ token < sh.next
  | .looking _ p => Ok made sh p ∧ born p.token
  | .taking id token => (born token ∧ token < sh.next)
    ∧ ((holding sh.held id token).isSome → sh.revs id = made token)
  | .ending _ p => Ok made sh p
  | .releasing id p => Ok made sh p ∧ sh.revs id = p.own

structure Fresh (made : ℕ → ℕ) (born : ℕ → Prop) (s : State) : Prop where
  held : ∀ id p, (id, p) ∈ s.sh.held → Ok made s.sh p ∧ born p.token
  threads : ∀ t ∈ s.threads, t.Fresh made born s.sh
  published : ∀ x ∈ s.sh.published, x.rev = x.own
  born : ∀ k, born k → k < s.sh.next

section
variable {made : ℕ → ℕ} {born : ℕ → Prop} {sh sh' : Shared}

theorem Ok.next {p : Pending} (h : Ok made sh p) (hnext : sh.next ≤ sh'.next) : Ok made sh' p :=
  ⟨h.own, h.made, Nat.lt_of_lt_of_le h.drawn hnext⟩

/-- What a thread knows stays so while the counts stay and no hold of an old token appears. -/
theorem Thread.Fresh.frame {t : Thread} (h : t.Fresh made born sh) (hrevs : sh'.revs = sh.revs)
    (hnext : sh.next ≤ sh'.next) (hheld : ∀ id token, born token →
      (holding sh'.held id token).isSome → (holding sh.held id token).isSome) :
    t.Fresh made born sh' := by
  cases t with
  | reporting id own done why =>
    unfold Thread.Fresh at h ⊢
    rw [hrevs]
    exact h
  | entering id p | looking id p => exact ⟨h.1.next hnext, h.2⟩
  | sleeping id token | extending id token | dropping id token => exact ⟨h.1, Nat.lt_of_lt_of_le h.2 hnext⟩
  | taking id token =>
    refine ⟨⟨h.1.1, Nat.lt_of_lt_of_le h.1.2 hnext⟩, fun hthere => ?_⟩
    rw [hrevs]
    exact h.2 (hheld id token h.1.1 hthere)
  | ending id p => exact Ok.next h hnext
  | releasing id p =>
    refine ⟨h.1.next hnext, ?_⟩
    rw [hrevs]
    exact h.2

/-- A report that meets no exposed thread of its agent changes nothing any thread knows. -/
theorem Thread.Fresh.report {t : Thread} (h : t.Fresh made born sh) {id : Id}
    (hexposed : ¬ t.exposed sh.held id) :
    t.Fresh made born { sh with revs := note_report id sh.revs } := by
  cases t with
  | reporting id' own done why =>
    unfold Thread.Fresh at h ⊢
    show note_report id sh.revs id' = own
    rw [note_report, update_of_ne hexposed]
    exact h
  | entering id' p | looking id' p => exact ⟨h.1.next (Nat.le_refl _), h.2⟩
  | sleeping id' token => exact h
  | extending id' token => exact h
  | dropping id' token => exact h
  | taking id' token =>
    refine ⟨h.1, fun hthere => ?_⟩
    have hne : id' ≠ id := by
      rintro rfl
      exact hexposed ⟨rfl, hthere⟩
    show note_report id sh.revs id' = made token
    rw [note_report, update_of_ne hne]
    exact h.2 hthere
  | ending id' p => exact Ok.next h (Nat.le_refl _)
  | releasing id' p =>
    refine ⟨h.1.next (Nat.le_refl _), ?_⟩
    show note_report id sh.revs id' = p.own
    rw [note_report, update_of_ne hexposed]
    exact h.2

/-- A drawn token gets its count. -/
theorem Ok.draw {p : Pending} (h : Ok made sh p) (rev : ℕ) (hnext : sh.next ≤ sh'.next) :
    Ok (Function.update made sh.next rev) sh' p := by
  refine ⟨h.own, ?_, Nat.lt_of_lt_of_le h.drawn hnext⟩
  rw [update_of_ne (Nat.ne_of_lt h.drawn)]
  exact h.made

theorem Thread.Fresh.draw {t : Thread} (h : t.Fresh made born sh) (rev : ℕ) :
    t.Fresh (Function.update made sh.next rev) born { sh with next := sh.next + 1 } := by
  have hnext : sh.next ≤ { sh with next := sh.next + 1 }.next := Nat.le_succ _
  cases t with
  | reporting id own done why => exact h
  | entering id p | looking id p | releasing id p => exact ⟨h.1.draw rev hnext, h.2⟩
  | sleeping id token | extending id token | dropping id token => exact ⟨h.1, Nat.lt_of_lt_of_le h.2 hnext⟩
  | taking id token =>
    refine ⟨⟨h.1.1, Nat.lt_of_lt_of_le h.1.2 hnext⟩, fun hthere => ?_⟩
    rw [update_of_ne (Nat.ne_of_lt h.1.2)]
    exact h.2 hthere
  | ending id p => exact Ok.draw h rev hnext

/-- A hold is entered: its token is among the holds from now on, and it was in no other hands. -/
theorem Thread.Fresh.enter {t : Thread} (h : t.Fresh made born sh) {id : Id} {p : Pending}
    (hhands : p.token ∉ t.in_hand) (hunborn : ¬ born p.token) :
    t.Fresh made (fun k => born k ∨ k = p.token) { sh with held := insert id p sh.held } := by
  cases t with
  | reporting id' own done why => exact h
  | entering id' q =>
    refine ⟨h.1.next (Nat.le_refl _), fun hborn => hborn.elim h.2 fun heq => hhands ?_⟩
    rw [← heq]
    exact mem_singleton.mpr rfl
  | sleeping id' token => exact ⟨.inl h.1, h.2⟩
  | looking id' q => exact ⟨h.1.next (Nat.le_refl _), .inl h.2⟩
  | extending id' token => exact ⟨.inl h.1, h.2⟩
  | dropping id' token => exact ⟨.inl h.1, h.2⟩
  | taking id' token =>
    refine ⟨⟨.inl h.1.1, h.1.2⟩, fun hthere => ?_⟩
    have hne : p.token ≠ token := by
      rintro rfl
      exact hunborn h.1.1
    obtain ⟨q, hq⟩ := isSome_iff_exists.mp hthere
    apply h.2
    rw [holding_insert hq hne]
    rfl
  | ending id' q => exact Ok.next h (Nat.le_refl _)
  | releasing id' q => exact ⟨h.1.next (Nat.le_refl _), h.2⟩

end

/-! ## A step that meets the condition -/

variable {s : State}

/-- The others have no token that a thread has in its hands. -/
theorem Sound.others (h : Sound s) {i : ℕ} {t : Thread} (ht : s.threads[i]? = some t)
    {k : ℕ} (hk : k ∈ t.in_hand) :
    ∀ t' ∈ s.threads.take i ++ s.threads.drop (i + 1), k ∉ t'.in_hand := by
  intro t' ht' hin
  have hsplit := split_at ht
  have honce := h.once k
  rw [count_tokens] at honce
  have hthreads : (s.threads.flatMap Thread.in_hand).count k
      = ((s.threads.take i ++ s.threads.drop (i + 1)).flatMap Thread.in_hand).count k
        + t.in_hand.count k := by
    conv_lhs => rw [hsplit]
    rw [flatMap_append, flatMap_append, flatMap_append, flatMap_singleton,
      count_append, count_append, count_append]
    omega
  have hself : 0 < t.in_hand.count k := count_pos_iff.mpr hk
  have hother : 0 < ((s.threads.take i ++ s.threads.drop (i + 1)).flatMap Thread.in_hand).count k :=
    count_pos_iff.mpr (mem_flatMap.mpr ⟨t', ht', hin⟩)
  omega

theorem mem_others {i : ℕ} {t' : Thread}
    (h : t' ∈ s.threads.take i ++ s.threads.drop (i + 1)) : t' ∈ s.threads := by
  rcases mem_append.mp h with h | h
  · exact mem_of_mem_take h
  · exact mem_of_mem_drop h

variable {born : ℕ → Prop} {made : ℕ → ℕ} {id : Id}

theorem holding_ok (h : Fresh made born s)
    {token : ℕ} {p : Pending} (hp : holding s.sh.held id token = some p) :
    Ok made s.sh p ∧ born p.token :=
  h.held id p (mem_of_lookup (holding_eq_some.mp hp).1)

theorem mem_remove {held : List (Id × Pending)} {entry : Id × Pending}
    (h : entry ∈ remove id held) : entry ∈ held :=
  mem_of_mem_filter h

theorem verdict_publish {o : Observed} (h : verdict o = .publish) : o.rev_moved = false := by
  unfold verdict at h
  by_contra hmoved
  rw [Bool.not_eq_false] at hmoved
  rw [hmoved, Bool.true_or, Bool.true_or, if_pos rfl] at h
  exact absurd h (by simp)

theorem Fresh.keeps {sh : Shared} {p : Pending} (h : Fresh made born s)
    (hin : (id, p) ∈ s.sh.held) (hnext : s.sh.next ≤ sh.next) : Ok made sh p ∧ born p.token :=
  (h.held id p hin).imp_left (·.next hnext)

/-- Taking a hold away takes nothing from what a thread knows. -/
theorem Thread.Fresh.remove {sh : Shared} {t : Thread}
    (h : t.Fresh made born sh) (id : Id) :
    t.Fresh made born { sh with held := remove id sh.held } := by
  refine h.frame rfl (Nat.le_refl _) fun id' token _ hthere => ?_
  obtain ⟨q, hq⟩ := isSome_iff_exists.mp hthere
  rw [holding_remove hq]
  rfl

/-- A hold is taken away, and what the threads know is what they knew. -/
theorem Fresh.removed (h : Fresh made born s) (id : Id) {threads : List Thread}
    (hthreads : ∀ t ∈ threads, t.Fresh made born s.sh) :
    Fresh made born { sh := { s.sh with held := remove id s.sh.held }, threads } where
  held _ _ hin := h.keeps (mem_remove hin) (Nat.le_refl _)
  threads t ht := (hthreads t ht).remove id
  published := h.published
  born := h.born

variable {i : ℕ}

/-- One thread goes on, and every other thread still knows what it knew. -/
theorem Fresh.advance {made : ℕ → ℕ} {born : ℕ → Prop} {s : State} (h : Fresh made born s)
    (hsound : Sound s) {t : Thread} (ht : s.threads[i]? = some t) (seen : Seen) :
    ∃ made' born', Fresh made' born' {
      sh := (t.advance s.sh seen).1
      threads := s.threads.take i ++ (t.advance s.sh seen).2 ++ s.threads.drop (i + 1) } := by
  have hself := h.threads t (mem_of_getElem? ht)
  have hmem : ∀ {behind : List Thread} {t' : Thread},
      t' ∈ s.threads.take i ++ behind ++ s.threads.drop (i + 1) →
      t' ∈ behind ∨ t' ∈ s.threads.take i ++ s.threads.drop (i + 1) := by
    intro behind t' hin
    simp only [mem_append] at hin ⊢
    tauto
  have hknow : ∀ {behind : List Thread}, (∀ t' ∈ behind, t'.Fresh made born s.sh) →
      ∀ t' ∈ s.threads.take i ++ behind ++ s.threads.drop (i + 1), t'.Fresh made born s.sh :=
    fun hbehind t' ht' => (hmem ht').elim (hbehind t') fun hin => h.threads t' (mem_others hin)
  -- the cases that leave the holds and the counts alone
  have hquiet : ∀ behind : List Thread, (∀ t' ∈ behind, t'.Fresh made born s.sh) →
      Fresh made born { sh := s.sh, threads := s.threads.take i ++ behind ++ s.threads.drop (i + 1) } :=
    fun behind hbehind => ⟨h.held, hknow hbehind, h.published, h.born⟩
  cases t with
  | reporting id own done why =>
    refine ⟨Function.update made s.sh.next (s.sh.revs id), born, fun id' p hin => ?_,
      fun t' ht' => ?_, h.published, fun k hk => Nat.lt_succ_of_lt (h.born k hk)⟩
    · obtain ⟨hok, hborn⟩ := h.held id' p hin
      exact ⟨hok.draw _ (Nat.le_succ _), hborn⟩
    · rcases hmem ht' with hin | hin
      · rw [mem_singleton.mp hin]
        refine ⟨⟨hself, update_self .., Nat.lt_succ_self _⟩, fun hborn => ?_⟩
        exact Nat.lt_irrefl _ (h.born _ hborn)
      · exact (h.threads t' (mem_others hin)).draw _
  | entering id p =>
    obtain ⟨hok, hunborn⟩ := hself
    have hnot := hsound.others ht (mem_singleton.mpr rfl : p.token ∈ Thread.in_hand (.entering id p))
    refine ⟨made, fun k => born k ∨ k = p.token, fun id' q hin => ?_, fun t' ht' => ?_,
      h.published, fun k hk => hk.elim (h.born k) fun heq => heq ▸ hok.drawn⟩
    · rcases mem_cons.mp hin with heq | hin
      · cases heq
        exact ⟨hok.next (Nat.le_refl _), .inr rfl⟩
      · obtain ⟨hq, hborn⟩ := h.held id' q (mem_remove hin)
        exact ⟨hq.next (Nat.le_refl _), .inl hborn⟩
    · rcases hmem ht' with hin | hin
      · rw [mem_singleton.mp hin]
        exact ⟨.inr rfl, hok.drawn⟩
      · exact (h.threads t' (mem_others hin)).enter (hnot t' hin) hunborn
  | sleeping id token =>
    refine ⟨made, born, ?_⟩
    rw [Thread.advance]
    rcases hp : holding s.sh.held id token with _ | p
    · exact hquiet [] (by simp)
    · exact hquiet _ (forall_mem_singleton.mpr (holding_ok h hp))
  | looking id p =>
    obtain ⟨hok, hborn⟩ := hself
    refine ⟨made, born, ?_⟩
    simp only [Thread.advance]
    rcases hverdict : verdict (observe id.2 p (s.sh.revs id) seen)
    · refine hquiet _ (forall_mem_singleton.mpr ?_)
      split_ifs
      · exact ⟨hborn, hok.drawn⟩
      · exact ⟨hborn, hok.drawn⟩
    · exact hquiet _ (forall_mem_singleton.mpr ⟨hborn, hok.drawn⟩)
    -- the counts were equal, and the token says which count that was
    · have hsame : s.sh.revs id = p.rev := by
        have hmoved := verdict_publish hverdict
        simpa [observe] using hmoved
      refine hquiet _ (forall_mem_singleton.mpr ⟨⟨hborn, hok.drawn⟩, fun _ => ?_⟩)
      rw [hsame, hok.made]
  | extending id token =>
    refine ⟨made, born, fun id' p hin => ?_, fun t' ht' => ?_, h.published, h.born⟩
    · obtain ⟨⟨id₀, q⟩, hq, heq⟩ := List.mem_map.mp hin
      split_ifs at heq with hkey
      · cases heq
        obtain ⟨hok, hborn⟩ := h.held id₀ q hq
        exact ⟨⟨hok.own, hok.made, hok.drawn⟩, hborn⟩
      · cases heq
        exact h.keeps hq (Nat.le_refl _)
    · refine (hknow (forall_mem_singleton.mpr ?_) t' ht').frame rfl (Nat.le_refl _)
        fun id' token' _ hthere => ?_
      · exact hself
      · obtain ⟨q, hq⟩ := isSome_iff_exists.mp hthere
        obtain ⟨p, hp⟩ := holding_extend hq
        rw [hp]
        rfl
  | dropping id token =>
    refine ⟨made, born, ?_⟩
    rw [Thread.advance]
    rcases holding s.sh.held id token with _ | p
    · exact hquiet [] (by simp)
    · exact h.removed id (hknow (by simp))
  | taking id token =>
    refine ⟨made, born, ?_⟩
    rw [Thread.advance]
    rcases hp : holding s.sh.held id token with _ | p
    · exact hquiet [] (by simp)
    · obtain ⟨hok, -⟩ := holding_ok h hp
      refine h.removed id (hknow (forall_mem_singleton.mpr ⟨hok, ?_⟩))
      have hcount := hself.2 (by rw [hp]; rfl)
      rw [hcount, ← hok.own, ← hok.made, (holding_eq_some.mp hp).2]
  | ending id p =>
    refine ⟨made, born, ?_⟩
    rw [Thread.advance]
    split_ifs with hsame
    · rw [Bool.and_eq_true, decide_eq_true_iff] at hsame
      refine hquiet _ (forall_mem_singleton.mpr ⟨hself, ?_⟩)
      rw [hsame.2]
      exact Ok.own hself
    · exact hquiet [] (by simp)
  | releasing id p =>
    refine ⟨made, born, fun id' q hin => h.keeps hin (Nat.le_refl _), fun t' ht' => ?_,
      fun x hx => ?_, h.born⟩
    · exact (hknow (forall_mem_nil _) t' ht').frame rfl (Nat.le_refl _) fun _ _ _ hthere => hthere
    · rcases mem_append.mp hx with hx | hx
      · exact h.published x hx
      · rw [mem_singleton.mp hx]
        exact hself.2

variable {s s' : State}

theorem Fresh.step {a : Action}
    (h : Fresh made born s) (hsound : Sound s) (ha : Unhindered s a) (hstep : step s a = some s') :
    ∃ made' born', Fresh made' born' s' := by
  cases a with
  | report id =>
    cases hstep
    exact ⟨made, born, fun id' p hin => h.keeps hin (Nat.le_refl _), fun t ht => (h.threads t ht).report (ha t ht), h.published, h.born⟩
  | done id counts done why =>
    cases hstep
    refine ⟨made, born, fun id' p hin => h.keeps hin (Nat.le_refl _), fun t ht => ?_,
      h.published, h.born⟩
    rcases mem_append.mp ht with hin | hin
    · cases counts with
      | true => exact (h.threads t hin).report (ha t hin)
      | false => exact (h.threads t hin).frame rfl (Nat.le_refl _) fun _ _ _ hthere => hthere
    · rw [mem_singleton.mp hin]
      exact rfl
  | cancel id =>
    cases hstep
    exact ⟨made, born, h.removed id h.threads⟩
  | end_session id =>
    rw [Lpm.Status.step] at hstep
    rcases hlookup : s.sh.held.lookup id with _ | p
    · rw [hlookup] at hstep
      rw [← some.inj hstep]
      exact ⟨made, born, h⟩
    · simp only [hlookup] at hstep
      cases hstep
      refine ⟨made, born, h.removed id fun t ht => ?_⟩
      rcases mem_append.mp ht with ht | ht
      · exact h.threads t ht
      · rw [mem_singleton.mp ht]
        exact (h.held id p (mem_of_lookup hlookup)).1
  | advance i seen =>
    rw [Lpm.Status.step] at hstep
    rcases ht : s.threads[i]? with _ | t
    · rw [ht] at hstep
      exact absurd hstep (by simp)
    · simp only [ht] at hstep
      cases hstep
      exact h.advance hsound ht seen

/-! ## A report that the condition rules out -/

/-- A Done was published over a later report. -/
def Stale (s : State) : Prop := ∃ x ∈ s.sh.published, x.rev ≠ x.own

def run (s : State) (actions : List Action) : Option State := actions.foldlM step s

/-- One thread going on alone publishes a Done over a later report. -/
def Leads (i : ℕ) (s : State) : Prop :=
  ∃ (seens : List Seen) (s' : State), run s (seens.map (.advance i)) = some s' ∧ Stale s'

theorem Leads.advance {seen : Seen} (hstep : step s (.advance i seen) = some s')
    (h : Leads i s') : Leads i s := by
  obtain ⟨seens, s'', hrun, hstale⟩ := h
  refine ⟨seen :: seens, s'', ?_, hstale⟩
  rw [map_cons, run, foldlM_cons, hstep]
  exact hrun

/-- A thread that leaves one thread behind stands where it stood. -/
theorem advance_one {s : State} {t t' : Thread} {seen : Seen} {sh : Shared}
    (ht : s.threads[i]? = some t) (h : t.advance s.sh seen = (sh, [t'])) :
    ∃ s', step s (.advance i seen) = some s' ∧ s'.sh = sh ∧ s'.threads[i]? = some t' := by
  have hlen : i < s.threads.length := (List.getElem?_eq_some_iff.mp ht).1
  refine ⟨{ sh, threads := s.threads.take i ++ [t'] ++ s.threads.drop (i + 1) }, ?_, rfl, ?_⟩
  · simp only [step, ht, h]
  · have htake : (s.threads.take i).length = i := by
      rw [length_take]
      omega
    rw [append_assoc, getElem?_append_right (by omega), htake, Nat.sub_self]
    rfl

/-- A look at a quiet pane with nothing on it. -/
def quiet (now : ℤ) : Seen :=
  { now, last_output := none, live_on_pane := [], shown := none, busy := false, quiet_since := none,
    current_pane := fun pane => pane }

theorem leads_releasing {p : Pending}
    (ht : s.threads[i]? = some (.releasing id p)) (hlate : s.sh.revs id ≠ p.own) : Leads i s := by
  have hstep : ∃ s', step s (.advance i (quiet 0)) = some s' ∧ s'.sh.published = s.sh.published
      ++ [{ id, token := p.token, own := p.own, rev := s.sh.revs id, entry := released (quiet 0) p }] := by
    simp only [step, ht]
    exact ⟨_, rfl, rfl⟩
  obtain ⟨s', hs', hpublished⟩ := hstep
  have hin : { id, token := p.token, own := p.own, rev := s.sh.revs id, entry := released (quiet 0) p }
      ∈ s'.sh.published := by
    rw [hpublished]
    exact mem_append_right _ (mem_singleton.mpr rfl)
  exact Leads.advance hs' ⟨[], s', rfl, _, hin, hlate⟩

theorem leads_taking {token : ℕ} {p : Pending}
    (ht : s.threads[i]? = some (.taking id token)) (hp : holding s.sh.held id token = some p)
    (hlate : s.sh.revs id ≠ p.own) : Leads i s := by
  have hadvance : Thread.advance s.sh (quiet 0) (.taking id token)
      = ({ s.sh with held := remove id s.sh.held }, [.releasing id p]) := by
    rw [Thread.advance, hp]
  obtain ⟨s', hs', hsh, ht'⟩ := advance_one ht hadvance
  refine Leads.advance hs' (leads_releasing ht' ?_)
  rw [hsh]
  exact hlate

/-- Nothing in sight holds a Done back that was not running when it was held. -/
theorem quiet_publishes (key : String) {p : Pending} (hrunning : p.was_running = false) :
    verdict (observe key p p.rev (quiet (p.since + WAIT_CAP_MS))) = .publish := by
  have hage : p.since + WAIT_CAP_MS - p.since = WAIT_CAP_MS := by omega
  have hagent : ((AgentKind.of_key key).any fun agent => ([] : List StatusEntry).any fun e =>
      e.key ≠ key && starts_with e.key agent.key_prefix) = false := by
    rcases AgentKind.of_key key with _ | agent
    · rfl
    · rfl
  simp only [verdict, observe, quiet, hage, hagent, hrunning, Observed.work_goes_on,
    Observed.handing_back, Observed.drawing_on]
  simp [WAIT_CAP_MS, GRACE_MS]

theorem leads_reporting {own : ℕ} {done : StatusEntry} {why : Why}
    (ht : s.threads[i]? = some (.reporting id own done why)) (hlate : s.sh.revs id ≠ own) :
    Leads i s := by
  -- the hold is entered with the count as it is now
  obtain ⟨s₁, hs₁, hsh₁, ht₁⟩ := @advance_one i s _ _ (quiet 0) _ ht rfl
  obtain ⟨s₂, hs₂, hsh₂, ht₂⟩ := @advance_one i s₁ _ _ (quiet 0) _ ht₁ rfl
  set p : Pending := {
    token := s.sh.next, rev := s.sh.revs id, since := (quiet 0).now, why, done
    was_running := (quiet 0).shown.any fun e => e.value = STATUS_RUNNING
    extended := false, own } with hp
  have hholding : holding s₂.sh.held id p.token = some p := by
    rw [hsh₂]
    exact holding_eq_some.mpr ⟨lookup_insert_self, rfl⟩
  have hrevs : s₂.sh.revs id = p.rev := by
    rw [hsh₂, hsh₁]
  -- so the check finds nothing changed
  have hlook : Thread.advance s₂.sh (quiet 0) (.sleeping id p.token) = (s₂.sh, [.looking id p]) := by
    rw [Thread.advance, hholding]
  obtain ⟨s₃, hs₃, hsh₃, ht₃⟩ := advance_one ht₂ hlook
  have hdecide : Thread.advance s₃.sh (quiet (p.since + WAIT_CAP_MS)) (.looking id p)
      = (s₃.sh, [.taking id p.token]) := by
    simp only [Thread.advance]
    rw [hsh₃, hrevs, quiet_publishes id.2 rfl]
  obtain ⟨s₄, hs₄, hsh₄, ht₄⟩ := advance_one ht₃ hdecide
  have hlast : Leads i s₄ := by
    apply leads_taking ht₄
    · rw [hsh₄, hsh₃]
      exact hholding
    · rw [hsh₄, hsh₃, hrevs]
      exact hlate
  exact Leads.advance hs₁ (Leads.advance hs₂ (Leads.advance hs₃ (Leads.advance hs₄ hlast)))

/-! ## Every run -/

theorem sound_reachable (h : Reachable done_hold s) : Sound s := by
  refine Reachable.invariant ?_ ?_ h
  · rintro s rfl
    exact ⟨fun k => by simp [tokens, initial], fun k hk => absurd hk (by simp [tokens, initial])⟩
  · intro s a s' hs hstep
    exact hs.step hstep

theorem Sound.published (h : Sound s) : (s.sh.published.map Publication.token).Nodup := by
  rw [nodup_iff_count_le_one]
  intro k
  have honce := h.once k
  rw [count_tokens] at honce
  omega

/-- Whatever the order of steps, no hold is published twice. -/
theorem published_once (h : Reachable done_hold s) :
    (s.sh.published.map Publication.token).Nodup :=
  (sound_reachable h).published

/-- Every hold is published at most once, and none over a later report. -/
structure Good (s : State) : Prop where
  once : (s.sh.published.map Publication.token).Nodup
  fresh : ∀ x ∈ s.sh.published, x.rev = x.own

/-- A report that meets an exposed thread can be published over by this thread alone. -/
theorem Fresh.exposed_leads
    (h : Fresh made born s) {t : Thread} (hin : t ∈ s.threads) (hexposed : t.exposed s.sh.held id)
    (hstep : Status.step s (.report id) = some s') : ∃ i, Leads i s' := by
  obtain ⟨hthreads, hheld, hrevs⟩ : s'.threads = s.threads ∧ s'.sh.held = s.sh.held
      ∧ s'.sh.revs = note_report id s.sh.revs := by
    cases hstep
    exact ⟨rfl, rfl, rfl⟩
  have hcount : s'.sh.revs id = s.sh.revs id + 1 := by
    rw [hrevs]
    exact update_self ..
  have hfresh := h.threads t hin
  rw [← hthreads] at hin
  obtain ⟨i, ht⟩ := mem_iff_getElem?.mp hin
  refine ⟨i, ?_⟩
  cases t with
  | reporting id' own done why =>
    obtain rfl : id' = id := hexposed
    have hown : s.sh.revs id' = own := hfresh
    exact leads_reporting ht (by omega)
  | taking id' token =>
    obtain ⟨rfl, hthere⟩ := hexposed
    obtain ⟨p, hp⟩ := isSome_iff_exists.mp hthere
    have hok := (holding_ok h hp).1
    have hown : s.sh.revs id' = p.own := by
      rw [hfresh.2 hthere, ← hok.own, ← hok.made, (holding_eq_some.mp hp).2]
    rw [← hheld] at hp
    exact leads_taking ht hp (by omega)
  | releasing id' p =>
    obtain rfl : id' = id := hexposed
    have hown := hfresh.2
    exact leads_releasing ht (by omega)
  | entering id' p | sleeping id' token | looking id' p | extending id' token | dropping id' token
  | ending id' p => exact hexposed.elim

/-- The invariant of the runs that meet the condition. -/
def Inv (s : State) : Prop := Sound s ∧ ∃ made born, Fresh made born s

/-- As long as no report counts while a thread of its agent is exposed, every held Done is
published at most once and none over a later report; and a report that does can be
published over. -/
theorem held_done_once {s : State} (h : Reachable (done_hold.when Unhindered) s) :
    Good s ∧ ∀ id s', step s (.report id) = some s' → Unhindered s (.report id) ∨ ∃ i, Leads i s' := by
  have hinv : Inv s := by
    refine Reachable.invariant ?_ ?_ h
    · rintro s rfl
      refine ⟨sound_reachable (.start rfl), fun _ => 0, fun _ => False, ?_⟩
      exact ⟨fun _ _ hin => absurd hin not_mem_nil, fun _ hin => absurd hin not_mem_nil,
        fun _ hin => absurd hin not_mem_nil, fun _ hborn => hborn.elim⟩
    · rintro s a s' ⟨hsound, made, born, hfresh⟩ ⟨ha, hstep⟩
      exact ⟨hsound.step hstep, hfresh.step hsound ha hstep⟩
  obtain ⟨hsound, made, born, hfresh⟩ := hinv
  refine ⟨⟨hsound.published, hfresh.published⟩, fun id s' hstep => ?_⟩
  by_cases hunhindered : Unhindered s (.report id)
  · exact .inl hunhindered
  · right
    obtain ⟨t, hin, hexposed⟩ : ∃ t ∈ s.threads, t.exposed s.sh.held id := by
      simpa [Unhindered] using hunhindered
    exact hfresh.exposed_leads hin hexposed hstep

/-! ## Runs -/

def session : Id := ("web", "claude_code_s1")

def stop_report : StatusEntry :=
  { StatusEntry.default with key := "claude_code_s1", value := STATUS_DONE, pane_id := "p-1" }

theorem reachable_run (h : Reachable done_hold s) {actions : List Action}
    (hrun : run s actions = some s') : Reachable done_hold s' :=
  h.run (fun _ _ _ hstep => hstep) hrun

def other_session : Id := ("api", "gemini_s2")

/-- A thread goes on at these times, with nothing else to be seen. -/
def goes_on (thread : ℕ) (times : List ℤ) : List Action :=
  times.map fun now => .advance thread (quiet now)

theorem goes_on_unhindered (thread : ℕ) (times : List ℤ) :
    ∀ a ∈ goes_on thread times, ∀ s, Unhindered s a := by
  intro a ha s
  obtain ⟨now, -, rfl⟩ := mem_map.mp ha
  trivial

/-- Two agents' Dones are held; the second agent reports again, so the check drops its Done,
and the first agent's Done is published. -/
theorem held_done_once_published :
    ∃ s, Good s ∧ s.sh.published.map (fun x => (x.id, x.own, x.rev)) = [(session, 1, 1)] ∧
      s.sh.held = [] ∧ s.sh.revs other_session = 2 := by
  have calm : ∀ (s : State) id (asleep : List (Id × ℕ)),
      s.threads = asleep.map (fun x => .sleeping x.1 x.2) →
      ∀ t ∈ s.threads, ¬ t.exposed s.sh.held id := by
    intro s id asleep hthreads t ht
    rw [hthreads] at ht
    obtain ⟨x, -, rfl⟩ := mem_map.mp ht
    exact fun hexposed => hexposed
  have go : ∀ {s s' : State} (thread : ℕ) (times : List ℤ), Reachable (done_hold.when Unhindered) s →
      run s (goes_on thread times) = some s' → Reachable (done_hold.when Unhindered) s' :=
    fun thread times h hrun => h.run_when (fun _ _ _ hstep => hstep) (goes_on_unhindered thread times) hrun
  have h₀ : Reachable (done_hold.when Unhindered) initial := .start rfl
  have h₁ := h₀.next (a := Action.done session true stop_report ⟨false, false⟩)
    ⟨calm _ _ [] rfl, rfl⟩
  have h₂ := go 0 [0, 0] h₁ rfl
  have h₃ := h₂.next (a := Action.done other_session true stop_report ⟨false, false⟩)
    ⟨calm _ _ [(session, 0)] rfl, rfl⟩
  have h₄ := go 1 [100, 100] h₃ rfl
  have h₅ := h₄.next (a := Action.report other_session)
    ⟨calm _ _ [(session, 0), (other_session, 1)] rfl, rfl⟩
  have h₆ := go 1 [1600, 1600, 1600] h₅ rfl
  have h₇ := go 0 [1600, 1600, 1600, 1600] h₆ rfl
  exact ⟨_, (held_done_once h₇).1, rfl, rfl, rfl⟩

/-- The next turn begins between the verdict and the moment the hold is taken: the Done is
the first report, and goes out behind the second. -/
theorem held_done_over_running : ∃ s, Reachable done_hold s
    ∧ s.sh.published.map (fun x => (x.own, x.rev)) = [(1, 2)] := by
  have hrun : ∃ s, run initial ([.done session true stop_report { waits := false, drawing := false }]
      ++ goes_on 0 [0, 0, 1500, 1500] ++ [.report session] ++ goes_on 0 [1500, 1500]) = some s
      ∧ s.sh.published.map (fun x => (x.own, x.rev)) = [(1, 2)] := ⟨_, rfl, rfl⟩
  obtain ⟨s, hs, hpublished⟩ := hrun
  exact ⟨s, reachable_run (.start rfl) hs, hpublished⟩

/-- Two agents' Dones are held at once and both go out, the first over a later report. -/
theorem published_once_run :
    ∃ s : State, s.sh.published.map (fun x => (x.id, x.own, x.rev))
        = [(session, 1, 2), (other_session, 1, 1)] ∧
      (s.sh.published.map Publication.token).Nodup := by
  have hrun : ∃ s, run initial ([.done session true stop_report ⟨false, false⟩]
      ++ goes_on 0 [0, 0] ++ [.done other_session true stop_report ⟨false, false⟩]
      ++ goes_on 1 [100, 100] ++ goes_on 0 [1500, 1500] ++ [.report session]
      ++ goes_on 0 [1500, 1500] ++ goes_on 0 [1600, 1600, 1600, 1600]) = some s
      ∧ s.sh.published.map (fun x => (x.id, x.own, x.rev))
        = [(session, 1, 2), (other_session, 1, 1)] := ⟨_, rfl, rfl⟩
  obtain ⟨s, hs, hpublished⟩ := hrun
  exact ⟨s, hpublished, published_once (reachable_run (.start rfl) hs)⟩

end Lpm.Status
