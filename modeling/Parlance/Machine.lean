/-
  Running scripts.
-/
import Parlance.Machine.Step
import Parlance.Compiler

namespace Parlance

namespace Exec

/-- Makes so many turns at most. -/
def runFor (host : Host) (turns : Nat) (S : Slots := .stack) : Exec Bool :=
  match turns with
  | 0 => pure false
  | turns + 1 => do
    match ← step host S with
    | .finished => pure true
    | .running => runFor host turns S

/-- Calls a function on an empty stack. -/
def start (r : Ref) (S : Slots := .stack) : Exec Unit := do
  modify fun m => { m with interrupted := false }
  S.push (.object r)
  let closure ← newClosure r
  discard S.pop
  S.push (.object closure)
  enterCall closure (some r) 0 S

end Exec

/-- How a run ended. -/
inductive Outcome where
  | finished
  | unfinished
  | refused (ds : Diagnostics)
  | failed (e : RuntimeError)

def Outcome.names : List String := ["ok", "compile error", "runtime error"]

def Outcome.name : Outcome → String
  | finished | unfinished => "ok"
  | refused _ => "compile error"
  | failed _ => "runtime error"

def Outcome.message? : Outcome → Option String
  | finished | unfinished => none
  | refused ds => some ds.message
  | failed e => some e.message

namespace Machine

/-- How a computation ended. A fault becomes an error without a trace, and the run is dropped, so
that the machine can be used again. -/
def settle {α : Type} : EStateM.Result Halt Machine α → Except RuntimeError α × Machine
  | .ok a m => (.ok a, m)
  | .error (.failed e) m => (.error e, m)
  | .error (.fault f) m => (.error { failure := .fault f, file := m.file }, m.abandon)

/-- Compiles a source, and lays the script out. Where the names in it are other constants on the
heap than in the code, neither the code nor the diagnostics are worth anything. -/
def compile (m : Machine) (file source : String) : Except Diagnostics Ref × Machine :=
  let c := Parlance.compile file source
  let b := m.heap.buildAll m.roots m.settings.printCode c.builds
  let m := { m with heap := b.heap }
  match b.astray, c.diagnostics, b.finished with
  | true, _, _ => (.error [], m)
  | false, [], some r => (.ok r, m)
  | false, ds, _ => (.error ds, m)

/-- Goes on with a run. -/
def resume (m : Machine) (host : Host) (turns : Nat) (S : Slots := .stack) : Outcome × Machine :=
  match settle ((Exec.runFor host turns S).run m) with
  | (.ok true, m) => (.finished, m)
  | (.ok false, m) => (.unfinished, m)
  | (.error e, m) => (.failed e, m)

/-- Begins a run. -/
def begin (m : Machine) (file : String) (r : Ref) (S : Slots := .stack) :
    Except RuntimeError Unit × Machine :=
  settle ((Exec.start r S).run { m with file })

/-- Runs a function. -/
def runFunction (m : Machine) (host : Host) (turns : Nat) (file : String) (r : Ref)
    (S : Slots := .stack) : Outcome × Machine :=
  match m.begin file r S with
  | (.error e, m) => (.failed e, m)
  | (.ok (), m) => m.resume host turns S

/-- Compiles a source and runs it. -/
def run (m : Machine) (host : Host) (turns : Nat) (file source : String) (S : Slots := .stack) :
    Outcome × Machine :=
  match m.compile file source with
  | (.error ds, m) => (.refused ds, m)
  | (.ok r, m) => m.runFunction host turns file r S

def report (m : Machine) (o : Outcome) : Machine :=
  match o.message? with
  | some message => { m with reports := m.reports ++ message ++ "\n" }
  | none => m

/-! ## The host's side -/

/-- Lays a script out. -/
def load (m : Machine) (p : Proto) : Ref × Machine :=
  let (r, heap) := m.heap.layOut true m.roots p
  (r, { m with heap })

/-- Binds a name to a value. -/
def setGlobal (m : Machine) (name : String) (v : Value) : Machine :=
  let m := { m with stack := m.stack.push v }
  let (key, heap) := m.heap.intern m.roots name
  { m with
    heap
    globals := (m.globals.set key v).2
    stack := m.stack.cutTo (m.stack.depth - 1) }

/-- Gives up every object. -/
def free (m : Machine) : Machine :=
  let m := (settle (Exec.resetStack.run m)).2
  { m with globals := {}, heap := m.heap.freeAll }

end Machine

end Parlance
