/-
Bringing a list of ignored files in step with other computers.

This Mac sits in the middle. One round settles it with one computer: both sides are listed,
a plan is made, files are copied both ways, and what the two now agree on is recorded. After
a round with each, the computers before the last one that brought files here get another.

What the disks and the network do to a round is `RoundEnv`: a listing may fail, and a copy
may stop part way. A copy that does not fail has landed every file with the content it had.
-/
import Lpm.Ignored.Plan
import Lpm.Lib.RustText
import Lpm.Lib.Writes

set_option autoImplicit false

open Keyed RustText Writes

namespace Lpm.Ignored

/-- The files of a project on one computer, each at its path. -/
structure Folder where
  files : List FileRec
  distinct : (files.map FileRec.path).Nodup

variable (d : Folder)

def Folder.file (p : String) : Option FileRec := get FileRec.path d.files p

/-- What one project keeps in step with one other computer. -/
structure SyncList where
  remote_root : String
  paths : List String
  keep : Bool
  last : String → Option String
  conflicts : List String
  error : Option String

/-- One project on this Mac and on the other computers, and its list for each. -/
structure World where
  here : Folder
  there : String → Folder
  lists : String → Option SyncList

/-- What became of a copy. With no error every file landed; a landed file may differ in its
modification time and mode. -/
structure Copied where
  batch : String
  bytes : ℕ
  added : ℕ
  replaced : ℕ
  error : Option String
  landed : ℕ
  counted : ℕ
  mtime : FileRec → ℕ
  exec : FileRec → Bool

/-- What the disks and the network do to one round. -/
structure RoundEnv where
  here_manifest : Option String
  there_manifest : Option String
  push : Copied
  pull : Copied

structure Step where
  sent : ℕ
  received : ℕ
  bytes : ℕ
  /-- What landed, as the batch and whether it was on the other computer. -/
  batches : List (String × Bool)
  conflicts : List String
  error : Option String

def Step.default : Step :=
  { sent := 0, received := 0, bytes := 0, batches := [], conflicts := [], error := none }

/-! ## Listing and copying -/

def trim_end_matches (c : Char) (s : Str) : Str := (s.reverse.dropWhile (· = c)).reverse

/-- `ignoredpath::within`. -/
def within (chosen : List String) (path : String) : Bool :=
  chosen.any fun c =>
    let c := trim_end_matches '/' c.toList
    !c.isEmpty && match strip_prefix c path.toList with
      | none => false
      | some rest => rest.isEmpty || rest.head? = some '/'

/-- Every file the paths hold. -/
def Folder.manifest (paths : List String) : List FileRec :=
  d.files.filter fun f => within paths f.path

variable (o : Copied)

/-- A file as it lands. -/
def Copied.touch (f : FileRec) : FileRec := { f with mtime := o.mtime f, exec := o.exec f }

def Folder.copy (files : List FileRec) : Folder :=
  let landed := if o.error = none then files else files.take o.landed
  { files := put_all FileRec.path d.files (landed.map o.touch), distinct := nodup_put_all d.distinct }

/-- The files a copy says it has sent. -/
def Copied.files (files : List FileRec) : ℕ :=
  if o.error = none then files.length else o.counted

/-! ## One round -/

/-- One direction of a round, until one has stopped part way. -/
def send (step : Step) (files : List FileRec) (o : Copied) (to_peer : Bool) :
    Folder × Step :=
  if files = [] ∨ step.error.isSome then (d, step)
  else
    (d.copy o files,
      { step with
        sent := step.sent + if to_peer then o.files files else 0
        received := step.received + if to_peer then 0 else o.files files
        bytes := step.bytes + o.bytes
        batches := step.batches ++ if o.added + o.replaced > 0 then [(o.batch, to_peer)] else []
        error := o.error })

/-- What is recorded after a round that went through. -/
def record (l : SyncList) (present : List String) (agreed : List (String × String))
    (conflicts : List String) : SyncList :=
  { l with
    last := write_all (fun p => if p ∈ present then l.last p else none)
      (agreed.map fun a => (a.1, some a.2))
    conflicts := conflicts
    error := none }

def digests (files : List FileRec) : List (String × String) := files.map fun f => (f.path, f.digest)

variable (w : World)

def bring_in_step (slug : String) (list : SyncList) (prefer : Option Prefer)
    (env : RoundEnv) : World × Except String Step :=
  match env.here_manifest, env.there_manifest with
  | some e, _ => (w, .error e)
  | none, some e => (w, .error e)
  | none, none =>
    let h := w.here.manifest list.paths
    let t := (w.there slug).manifest list.paths
    let plan := plan h t list.last prefer
    let step := { Step.default with conflicts := plan.conflicts }
    let (there, step) := send (w.there slug) step plan.push env.push true
    let (here, step) := send w.here step plan.pull env.pull false
    let w := { w with here, there := Function.update w.there slug there }
    if step.error.isSome then (w, .ok step)
    else
      let agreed := plan.agreed ++ digests plan.push ++ digests plan.pull
      ({ w with
        lists := Function.update w.lists slug ((w.lists slug).map fun l =>
          record l (h.map FileRec.path ++ t.map FileRec.path) agreed plan.conflicts) }, .ok step)

def round (slug : String) (prefer : Option Prefer) (env : RoundEnv) :
    World × Except String Step :=
  match w.lists slug with
  | none => (w, .error "the list was removed")
  | some list => bring_in_step w slug list prefer env

def Step.add (first later : Step) : Step where
  sent := first.sent + later.sent
  received := first.received + later.received
  bytes := first.bytes + later.bytes
  batches := first.batches ++ later.batches
  conflicts := later.conflicts
  error := later.error.or first.error

/-! ## All computers -/

/-- What the disks, the network and the user do to the rounds: the n-th of each pass, and
whether to stop before it. -/
structure Env where
  first : ℕ → RoundEnv
  again : ℕ → RoundEnv
  stop_first : ℕ → Bool
  stop_again : ℕ → Bool

/-- The first pass as far as it has come. -/
structure Pass where
  world : World
  out : List (String × Except String Step)
  brought_here : Option ℕ
  stopped : Bool

/-- A round with the computer that comes as the n-th. -/
def first_round (slugs : List String) (env : Env) (pass : Pass) (n : ℕ) (next : ℕ × Option Prefer) :
    Pass :=
  if pass.stopped ∨ env.stop_first n then { pass with stopped := true }
  else
    let slug := slugs.getD next.1 ""
    let (world, res) := round pass.world slug next.2 (env.first n)
    let brought : Bool := match res with
      | .ok s => s.received > 0
      | .error _ => false
    { pass with
      world
      out := pass.out ++ [(slug, res)]
      brought_here := if brought then some n else pass.brought_here }

def first_pass (slugs : List String) (env : Env) (pass : Pass) (n : ℕ) :
    List (ℕ × Option Prefer) → Pass
  | [] => pass
  | next :: rest => first_pass slugs env (first_round slugs env pass n next) (n + 1) rest

/-- The second round with the n-th computer. -/
def again_round (choice : Option Choice) (env : Env) (pass : Pass) (n : ℕ) : Pass :=
  if pass.stopped ∨ env.stop_again n then { pass with stopped := true }
  else match pass.out[n]? with
    | some (slug, .ok first) =>
      if first.error.isSome then pass
      else
        let (world, res) := round pass.world slug (choice.map fun _ => .Here) (env.again n)
        let step := match res with
          | .ok step => first.add step
          | .error e => { first with error := some e }
        { pass with world, out := pass.out.set n (slug, .ok step) }
    | _ => pass

def bring_all_in_step (slugs : List String) (choice : Option Choice) (env : Env) :
    World × List (String × Except String Step) :=
  let pass := first_pass slugs env ⟨w, [], none, false⟩ 0 (order slugs choice)
  if pass.stopped then (pass.world, pass.out)
  else
    let pass := (List.range (pass.brought_here.getD 0)).foldl (again_round choice env) pass
    (pass.world, pass.out)

end Lpm.Ignored
