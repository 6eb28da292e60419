/-
Transactions over data of any kind: statements that each may fail, for a reason of their own
or of the disk's, and a transaction that leaves the data alone unless all of it went through.

The faults of the disk are a sequence that the statements go through, one each. What is proved
of a transaction is proved of one that went through; about one that failed there is nothing
more to say than `transaction_error`.
-/
import Lpm.Lib.Fallible

set_option autoImplicit false

namespace Transactions

/-- A connection in the middle of a transaction: the data as the transaction sees it, and what
goes wrong on the disk from here on. -/
structure Conn (σ : Type) where
  data : σ
  faults : ℕ → Option String

/-- A part of a transaction. -/
abbrev Tx (σ α : Type) := StateT (Conn σ) (Except String) α

section
variable {σ α β : Type}

/-- One statement, whose error comes behind the label its caller gives it. -/
def statement (label : String) (run : σ → Except String (α × σ)) : Tx σ α := fun c =>
  match c.faults 0 with
  | some e => .error (label ++ e)
  | none =>
    match run c.data with
    | .error e => .error (label ++ e)
    | .ok (a, data) => .ok (a, { data, faults := fun n => c.faults (n + 1) })

/-- A statement that changes nothing. -/
def query (label : String) (run : σ → α) : Tx σ α := statement label fun data => .ok (run data, data)

/-- A transaction from its beginning to its commit. The data stays as it was where any of it
fails. -/
def transaction (tx : Tx σ α) (faults : ℕ → Option String) (data : σ) : Except String α × σ :=
  let whole : Tx σ α := do
    query "" fun _ => ()
    let a ← tx
    query "" fun _ => ()
    return a
  match whole { data, faults } with
  | .ok (a, c) => (.ok a, c.data)
  | .error e => (.error e, data)

variable {tx : Tx σ α} {label : String} {run : σ → Except String (α × σ)} {c c' : Conn σ} {a : α}
  {faults : ℕ → Option String} {data data' : σ}

/-- A part that went through: the first of it did, and so did the rest. -/
theorem bind_ok {f : α → Tx σ β} {b : β} (h : (tx >>= f) c = .ok (b, c')) :
    ∃ a middle, tx c = .ok (a, middle) ∧ f a middle = .ok (b, c') := by
  obtain ⟨⟨a, middle⟩, hfirst, hrest⟩ := Fallible.bind_ok h
  exact ⟨a, middle, hfirst, hrest⟩

theorem pure_ok {b : α} (h : (pure b : Tx σ α) c = .ok (a, c')) : b = a ∧ c = c' :=
  Prod.mk.inj (Except.ok.inj h)

theorem statement_ok (h : statement label run c = .ok (a, c')) : run c.data = .ok (a, c'.data) := by
  rw [statement] at h
  split at h
  · cases h
  · split at h
    · cases h
    next hrun =>
      cases h
      exact hrun

/-- A statement that has no error of its own. -/
theorem statement_run {run : σ → α × σ}
    (h : statement label (fun data => .ok (run data)) c = .ok (a, c')) :
    (run c.data).1 = a ∧ (run c.data).2 = c'.data := by
  rw [Except.ok.inj (statement_ok h)]
  exact ⟨rfl, rfl⟩

theorem query_ok {read : σ → α} (h : query label read c = .ok (a, c')) :
    read c.data = a ∧ c'.data = c.data := by
  obtain ⟨hread, hdata⟩ := Prod.mk.inj (Except.ok.inj (statement_ok h))
  exact ⟨hread, hdata.symm⟩

/-- A transaction that went through is what its part came to. -/
theorem transaction_ok (h : transaction tx faults data = (.ok a, data')) :
    ∃ c c', tx c = .ok (a, c') ∧ c.data = data ∧ c'.data = data' := by
  rw [transaction] at h
  split at h
  next a' last hwhole =>
    obtain ⟨hresult, hdata⟩ := Prod.mk.inj h
    obtain ⟨_, first, hbegin, hrest⟩ := bind_ok hwhole
    obtain ⟨_, middle, htx, hrest⟩ := bind_ok hrest
    obtain ⟨_, committed, hcommit, hpure⟩ := bind_ok hrest
    obtain ⟨hvalue, hlast⟩ := pure_ok hpure
    refine ⟨first, middle, ?_, (query_ok hbegin).2, ?_⟩
    · rw [htx, hvalue, Except.ok.inj hresult]
    · rw [← hdata, ← hlast, (query_ok hcommit).2]
  · exact nomatch (Prod.mk.inj h).1

theorem throw_ne_ok {e : String} : (throw e : Tx σ α) c ≠ .ok (a, c') := nofun

/-- A loop keeps what each of its turns keeps. -/
theorem forM_invariant {P : σ → Prop} {f : β → Tx σ Unit} {l : List β}
    (hstep : ∀ b ∈ l, ∀ c c', P c.data → f b c = .ok ((), c') → P c'.data) (hP : P c.data)
    (h : l.forM f c = .ok ((), c')) : P c'.data := by
  induction l generalizing c with
  | nil =>
    rw [← (pure_ok h).2]
    exact hP
  | cons b l ih =>
    have hcons : (f b >>= fun _ => l.forM f) c = .ok ((), c') := h
    obtain ⟨_, middle, hfirst, hrest⟩ := bind_ok hcons
    have hmiddle := hstep b List.mem_cons_self c middle hP hfirst
    exact ih (fun b hb => hstep b (List.mem_cons_of_mem _ hb)) hmiddle hrest

/-- One that failed leaves the data as it was. -/
theorem transaction_error {e : String} (h : (transaction tx faults data).1 = .error e) :
    (transaction tx faults data).2 = data := by
  rw [transaction] at h ⊢
  split at h
  · exact nomatch h
  · rfl

/-- What a part keeps where it goes through, the transaction keeps. -/
theorem transaction_invariant {P : σ → Prop}
    (hstep : ∀ c a c', P c.data → tx c = .ok (a, c') → P c'.data) (hP : P data) :
    P (transaction tx faults data).2 := by
  cases h : transaction tx faults data with
  | mk result data' =>
    cases result with
    | ok a =>
      obtain ⟨c, c', htx, hdata, rfl⟩ := transaction_ok h
      exact hstep c a c' (hdata ▸ hP) htx
    | error e =>
      have herror := transaction_error (congrArg Prod.fst h)
      rw [h] at herror
      rw [show data' = data from herror]
      exact hP

end

end Transactions
