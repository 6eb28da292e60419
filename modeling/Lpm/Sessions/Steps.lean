/-
What one step of a request can do, and what the registry is after each of its operations.
-/
import Lpm.Sessions.Daemon

set_option autoImplicit false

open RustText

namespace Lpm.Sessions

open List Option

theorem pane_id_injective {n m : ℕ} (h : pane_id n = pane_id m) : n = m := by
  have hdigits : Nat.toDigits 10 n = Nat.toDigits 10 m := (List.cons.inj h).2
  rw [← Nat.ofDigitChars_ten_toDigits (n := n), hdigits, Nat.ofDigitChars_ten_toDigits]

/-! ## The registry -/

namespace Registry

variable {r r' : Registry} {s session : Str} {pane : Pane} {id : Str}

/-- The registry is one that the daemon's operations build. -/
def Wf (r : Registry) : Prop := Groups.Wf r.sessions

theorem panes_take : (r.take session).panes s = if session = s then [] else r.panes s :=
  Groups.get_remove

theorem panes_push : (r.push session pane).panes s =
    if session = s then r.panes session ++ [pane] else r.panes s := Groups.get_push

variable (h : r.Wf)
include h

theorem panes_drop_pane : (r.drop_pane id).panes s = (r.panes s).filter fun p => !(p.id = id) :=
  Groups.get_drop h

omit h in
theorem panes_drain : r.drain.panes s = [] := rfl

theorem Wf.take (session : Str) : (r.take session).Wf := Groups.Wf.remove h session

theorem Wf.push (session : Str) (pane : Pane) : (r.push session pane).Wf :=
  Groups.Wf.push h session pane

theorem Wf.drop_pane (id : Str) : (r.drop_pane id).Wf := Groups.Wf.drop h _

omit h in
theorem wf_drain : r.drain.Wf := Groups.wf_nil

/-- A batch of panes is dropped. -/
theorem panes_drop_all (batch : List Pane) :
    (batch.foldl (fun reg pane => reg.drop_pane pane.id) r).Wf ∧
      (batch.foldl (fun reg pane => reg.drop_pane pane.id) r).next_pane = r.next_pane ∧
      ∀ s, (batch.foldl (fun reg pane => reg.drop_pane pane.id) r).panes s =
        (r.panes s).filter fun p => !(p.id ∈ batch.map Pane.id) := by
  induction batch generalizing r with
  | nil => exact ⟨h, rfl, fun s => by simp⟩
  | cons pane batch ih =>
    obtain ⟨hwf, hnext, hpanes⟩ := ih (h.drop_pane pane.id)
    refine ⟨hwf, hnext, fun s => ?_⟩
    rw [foldl_cons, hpanes, panes_drop_pane h, List.filter_filter]
    refine filter_congr fun p _ => ?_
    by_cases hp : p.id = pane.id <;> by_cases hb : p.id ∈ batch.map Pane.id <;>
      simp [hp, hb, map_cons, mem_cons]

theorem find_eq_some (hfind : r.find id = some pane) :
    pane.id = id ∧ ∃ s, pane ∈ r.panes s := by
  obtain ⟨hid, hs⟩ := Groups.find_eq_some h hfind
  exact ⟨of_decide_eq_true hid, hs⟩

theorem replace_eq_some (hrep : r.replace id pane = some r') :
    r'.Wf ∧ r'.next_pane = r.next_pane ∧ ∃ session before old after,
      r.panes session = before ++ old :: after ∧ old.id = id ∧
      ∀ s, r'.panes s = if session = s then before ++ pane :: after else r.panes s := by
  obtain ⟨sessions, hsome, rfl⟩ := map_eq_some_iff.mp hrep
  obtain ⟨session, before, old, after, hget, hid, hothers⟩ := Groups.replace_eq_some h hsome
  exact ⟨Groups.Wf.replace h hsome, rfl, session, before, old, after, hget, of_decide_eq_true hid, hothers⟩

theorem mem_members : pane ∈ r.sessions.members ↔ ∃ s, pane ∈ r.panes s := Groups.mem_members h

/-- The session a pane is listed in. -/
theorem session_of_eq (hmem : pane ∈ r.panes s) :
    ∃ session, Call.session_of r pane = some session ∧ pane ∈ r.panes session := by
  obtain ⟨g, hg, -, hpane⟩ := Groups.mem_of_get hmem
  cases hfind : r.sessions.find? fun g => g.2.contains pane with
  | none =>
    have hnot := find?_eq_none.mp hfind g hg
    exact absurd (by simpa using hpane) hnot
  | some g' =>
    refine ⟨g'.1, by rw [Call.session_of, hfind]; rfl, ?_⟩
    have hin := find?_some hfind
    have hg' := Groups.get_of_mem h.nodup (mem_of_find?_eq_some hfind)
    rw [Registry.panes, hg']
    simpa using hin

end Registry

/-! ## What a step does -/

/-- What a step of one request can do, by what it does to the registry and to the panes in the
thread's hands. -/
inductive Did (w : Shared) (ended : ℕ → Bool) (busy : ℕ) (c : Call) : Outcome → Shared → Call → Prop
  /-- It is begun, or turned away. -/
  | looks {o : Outcome} (at_ : c.phase = .begun) :
    Did w ended busy c o w (c.goes (if w.retiring then .over none else .entered))
  /-- It is refused at once. -/
  | refuses {o : Outcome} {error : Str} (at_ : c.phase = .entered) :
    Did w ended busy c o w (c.answers (.error error))
  | starts {o : Outcome} {session : Str} {specs : List PaneSpec} (at_ : c.phase = .entered)
      (request : c.request = .start session specs) (some_ : specs ≠ []) :
    Did w ended busy c o { w with reg := w.reg.take session }
      ((c.works_on (some session) []).goes (.closing (w.reg.panes session) (.opening session specs)))
  | splits {o : Outcome} {session : Str} {specs : List PaneSpec} (at_ : c.phase = .entered)
      (request : c.request = .split session specs) :
    Did w ended busy c o w ((c.works_on (some session) (w.reg.panes session)).goes (.opening session specs))
  | finds {o : Outcome} {pane text : Str} {old : Pane} (at_ : c.phase = .entered)
      (request : c.request = .send pane text) (found : w.reg.find pane = some old) :
    Did w ended busy c o w ((c.finds w.reg old).goes (.found old))
  | finds_none {o : Outcome} {pane text : Str} (at_ : c.phase = .entered)
      (request : c.request = .send pane text) : Did w ended busy c o w (c.goes .typing)
  | kills_pane {o : Outcome} {pane : Str} {found : Pane} (at_ : c.phase = .entered)
      (request : c.request = .kill_pane pane) (find : w.reg.find pane = some found) :
    Did w ended busy c o { w with reg := w.reg.drop_pane pane } (c.goes (.closing [found] (.answering (.ok ()))))
  | kills_session {o : Outcome} {session : Str} (at_ : c.phase = .entered)
      (request : c.request = .kill_session session) :
    Did w ended busy c o { w with reg := w.reg.take session }
      { c.works_on (some session) [] with
        phase := .closing (w.reg.panes session) (.answering (.ok ())), took := w.reg.panes session, over_then := ended }
  | retires {o : Outcome} (at_ : c.phase = .entered) (request : c.request = .shutdown) :
    Did w ended busy c o { w with retiring := true } (c.goes .retiring)
  | opens_all {o : Outcome} {session : Str} (at_ : c.phase = .opening session []) :
    Did w ended busy c o w (c.answers (.ok ()))
  | names {o : Outcome} {session : Str} {spec : PaneSpec} {rest : List PaneSpec}
      (at_ : c.phase = .opening session (spec :: rest)) :
    Did w ended busy c o { w with reg := w.reg.next_id.2 }
      (c.goes (.named session w.reg.next_id.1 spec rest))
  | opens {session id : Str} {spec : PaneSpec} {rest : List PaneSpec}
      (at_ : c.phase = .named session id spec rest) :
    Did w ended busy c .works w { c with
      phase := .opened session (Call.pane_of id spec) rest, opened := c.opened ++ [Call.pane_of id spec] }
  | fails {session id error : Str} {spec : PaneSpec} {rest : List PaneSpec}
      (at_ : c.phase = .named session id spec rest) :
    Did w ended busy c (.fails error) w (c.goes (.failed error))
  | lists {o : Outcome} {session : Str} {pane : Pane} {rest : List PaneSpec}
      (at_ : c.phase = .opened session pane rest) :
    Did w ended busy c o { w with reg := w.reg.push session pane } (c.goes (.opening session rest))
  | rolls_back {o : Outcome} {error : Str} (at_ : c.phase = .failed error) :
    Did w ended busy c o { w with reg := c.opened.foldl (fun reg pane => reg.drop_pane pane.id) w.reg }
      (c.goes (.closing c.opened (.answering (.error error))))
  | sees_life {o : Outcome} {old : Pane} (at_ : c.phase = .found old) :
    Did w ended busy c o w (c.goes (if w.gone old.id then .dead old else .typing))
  | renames {o : Outcome} {old : Pane} (at_ : c.phase = .dead old) :
    Did w ended busy c o { w with reg := w.reg.next_id.2 } (c.goes (.renamed old w.reg.next_id.1))
  | reopens {old : Pane} {id : Str} (at_ : c.phase = .renamed old id) :
    Did w ended busy c .works w { c with
      phase := .reopened old { old with id }, opened := c.opened ++ [{ old with id }] }
  | reopen_fails {old : Pane} {id error : Str} (at_ : c.phase = .renamed old id) :
    Did w ended busy c (.fails error) w (c.answers (.error error))
  | replaces {o : Outcome} {old pane : Pane} {reg : Registry} (at_ : c.phase = .reopened old pane)
      (replaced : w.reg.replace old.id pane = some reg) :
    Did w ended busy c o { w with reg } (c.answers (.ok ()))
  | not_there {o : Outcome} {old pane : Pane} {error : Str} (at_ : c.phase = .reopened old pane) :
    Did w ended busy c o w (c.goes (.closing [pane] (.answering (.error error))))
  | types {pane text : Str} {found : Pane} (at_ : c.phase = .typing)
      (request : c.request = .send pane text) (find : w.reg.find pane = some found) :
    Did w ended busy c .works w ((c.finds w.reg found).answers (.ok ()))
  | types_not {o : Outcome} {error : Str} (at_ : c.phase = .typing) :
    Did w ended busy c o w (c.answers (.error error))
  | sweeps {o : Outcome} (at_ : c.phase = .retiring) (drained : o = .works → busy ≤ 1) :
    Did w ended busy c o { w with reg := w.reg.drain }
      { c with
        phase := .closing w.reg.sessions.members (.answering (.ok ()))
        took := w.reg.sessions.members
        over_then := ended
        drained := o = .works }
  | has_closed {o : Outcome} {next : Phase} (at_ : c.phase = .closing [] next) :
    Did w ended busy c o w (c.goes next)
  | closes {o : Outcome} {pane : Pane} {panes : List Pane} {next : Phase}
      (at_ : c.phase = .closing (pane :: panes) next) :
    Did w ended busy c o { w with closed := Function.update w.closed pane.id true }
      (c.goes (.closing panes next))
  | ends {o : Outcome} {reply : Reply} (at_ : c.phase = .answering reply) :
    Did w ended busy c o w (c.goes (.over (some reply)))

theorem enter_did {w : Shared} {ended : ℕ → Bool} {busy : ℕ} {c : Call} {o : Outcome}
    (hphase : c.phase = .entered) :
    Did w ended busy c o (c.enter w ended).1 (c.enter w ended).2 := by
  unfold Call.enter
  split
  next session panes hrequest =>
    split
    · exact .refuses hphase
    next hsome => exact .starts hphase hrequest hsome
  next session panes hrequest =>
    split
    · exact .splits hphase hrequest
    · exact .refuses hphase
  next pane text hrequest =>
    split
    next old hfound => exact .finds hphase hrequest hfound
    next => exact .finds_none hphase hrequest
  next pane hrequest =>
    split
    next found hfind => exact .kills_pane hphase hrequest hfind
    next => exact .refuses hphase
  next session hrequest =>
    dsimp only
    split
    · exact .refuses hphase
    · exact .kills_session hphase hrequest
  next hrequest => exact .retires hphase hrequest

theorem step_did {w w' : Shared} {ended : ℕ → Bool} {busy : ℕ} {c c' : Call} {o : Outcome}
    (h : c.step w ended busy o = some (w', c')) : Did w ended busy c o w' c' := by
  -- one branch for each phase, and in it one case for what the step finds
  unfold Call.step at h
  split at h
  next hp =>
    cases h
    exact .looks hp
  next hp =>
    have he := some.inj h
    have hdid : Did w ended busy c o (c.enter w ended).1 (c.enter w ended).2 := enter_did hp
    rw [he] at hdid
    exact hdid
  next hp =>
    cases h
    exact .opens_all hp
  next hp =>
    cases h
    exact .names hp
  next hp =>
    split at h
    · cases h
      exact .opens hp
    · cases h
      exact .fails hp
  next hp =>
    cases h
    exact .lists hp
  next hp =>
    cases h
    exact .rolls_back hp
  next hp =>
    cases h
    exact .sees_life hp
  next hp =>
    cases h
    exact .renames hp
  next hp =>
    split at h
    · cases h
      exact .reopens hp
    · cases h
      exact .reopen_fails hp
  next hp =>
    split at h
    next hreplace =>
      cases h
      exact .replaces hp hreplace
    next =>
      cases h
      exact .not_there hp
  next hp =>
    split at h
    next hrequest =>
      split at h
      next hfind =>
        cases h
        exact .types hp hrequest hfind
      all_goals
        cases h
        exact .types_not hp
    next => exact nomatch h
  next hp =>
    split at h
    next => exact nomatch h
    next hbusy =>
      cases h
      exact .sweeps hp fun ho => Nat.not_lt.mp fun hlt => hbusy ⟨ho, hlt⟩
  next hp =>
    cases h
    exact .has_closed hp
  next hp =>
    cases h
    exact .closes hp
  next hp =>
    cases h
    exact .ends hp
  next => exact nomatch h

end Lpm.Sessions
