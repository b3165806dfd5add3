/-
  The commands of the tool.
-/
import Parlance.Config
import Parlance.Image.Decoding
import Parlance.Native.Builtins
import Parlance.Text.Utf8
import Parlance.Tool.Desk
import Parlance.Tool.Path

namespace Parlance

inductive Status where
  | ok
  | usage
  | data
  | failure
  | file
  | config
  deriving Repr, DecidableEq

def Status.code : Status → Nat
  | ok => 0
  | usage => 64
  | data => 65
  | failure => 70
  | file => 74
  | config => 78

/-- How a command ended. -/
structure Exit where
  status : Status := .ok
  message : String := ""
  deriving Repr, DecidableEq

/-- Settings on the command line. -/
structure Flags where
  config : String := ""
  trace : Bool := false
  print : Bool := false
  stress : Bool := false
  log : Bool := false
  deriving Repr

def Flags.apply (f : Flags) (s : Settings) : Settings :=
  { s with
    traceExecution := s.traceExecution || f.trace
    printCode := s.printCode || f.print
    heap := { s.heap with stress := s.heap.stress || f.stress, log := s.heap.log || f.log } }

def Image.isPath (path : String) : Bool :=
  Text.folded (Path.extension path) == Text.folded Image.extension

/-- Why a command fails. -/
inductive CommandError where
  | refused (ds : Diagnostics)
  | failed (e : RuntimeError)
  | file (e : FileError)
  | store (e : StoreError)
  | image (path : Option String) (e : Image.DecodeError)

def CommandError.message : CommandError → String
  | refused ds => ds.message
  | failed e => e.message
  | file e => e.message
  | store e => e.message
  | image path e => (path.map (· ++ ": ")).getD "" ++ e.message

def CommandError.status : CommandError → Status
  | refused _ => .data
  | failed _ => .failure
  | file _ => .file
  | store _ => .data
  | image .. => .data

def Outcome.error? : Outcome → Option CommandError
  | finished | unfinished => none
  | refused ds => some (.refused ds)
  | failed e => some (.failed e)

namespace Command

variable {m : Type → Type} [Monad m] [Desk m]

/-! ## Settings -/

def readConfig (path : String) : m (Except String Config) := do
  match ← Desk.readFile path with
  | .error e => return .error ("reading config: " ++ e.message)
  | .ok bytes =>
    match Config.parse path bytes with
    | .error e => return .error e.message
    | .ok config => return .ok config

def findConfig : List String → m (Except String Config)
  | [] => return .ok {}
  | directory :: rest => do
    let path := Path.join directory Config.fileName
    match ← Desk.stat path with
    | .ok () => readConfig path
    | .error e =>
      if e.reason == .notFound then findConfig rest
      else return .error ("checking " ++ path ++ ": " ++ e.message)

def absolute (path : String) : m String := do
  if Path.isAbsolute path then return Path.clean path
  else return Path.join (← Desk.currentDirectory) path

/-- The settings of a project. -/
def loadSettings (flags : Flags) (directory : String) : m (Except Exit Settings) := do
  let config ←
    if flags.config.isEmpty then findConfig (Path.ancestors (← absolute directory))
    else readConfig flags.config
  match config with
  | .error message => return .error ⟨.config, message⟩
  | .ok config => return .ok (flags.apply config.settings)

/-! ## Scripts -/

def passNotes (machine : Machine) : m Machine := do
  Desk.log machine.heap.journal
  return { machine with heap := { machine.heap with journal := #[] } }

def newMachine (settings : Settings) : m Machine :=
  let loaded := (Exec.loadBuiltins Native.builtinLibrary).run (Machine.new settings)
  passNotes (Machine.settle loaded).2

def host : Host := Native.builtinLibrary.host

def runFunction (machine : Machine) (file : String) (r : Ref) : m (Outcome × Machine) := do
  match machine.begin file r with
  | (.error e, machine) => return (.failed e, ← passNotes machine)
  | (.ok (), machine) => Desk.drive host (← passNotes machine)

def runSource (machine : Machine) (file source : String) : m (Outcome × Machine) := do
  match machine.compile file source with
  | (.error ds, machine) => return (.refused ds, ← passNotes machine)
  | (.ok r, machine) => runFunction (← passNotes machine) file r

/-- Says what went wrong. -/
def finish (error : Option CommandError) : m Exit := do
  match error with
  | none => return {}
  | some e =>
    Desk.printError (e.message ++ "\n")
    return { status := e.status }

/-- Runs the script in a file. Of an image that is at fault, the part in front of the fault is
loaded. -/
def runFile (machine : Machine) (path : String) : m (Option CommandError) := do
  match ← Desk.readFile path with
  | .error e => return some (.file e)
  | .ok bytes =>
    if Image.isPath path then
      match Image.read bytes with
      | .error fault =>
        match fault.begun with
        | some p => discard (passNotes (machine.load p).2)
        | none => pure ()
        return some (.image (some path) fault.error)
      | .ok p =>
        let (r, machine) := machine.load p
        return (← runFunction machine (Path.base path) r).1.error?
    else
      return (← runSource machine (Path.base path) (Text.ofBytes bytes)).1.error?

/-! ## Commands -/

/-- Runs a script or an image. -/
def run (flags : Flags) (path : String) : m Exit := do
  match ← loadSettings flags (Path.directory path) with
  | .error exit => return exit
  | .ok settings => finish (← runFile (← newMachine settings) path)

/-- Reports what is wrong with scripts, from the first on; `failed` says that one was at fault. -/
def checkAll : (failed : Bool) → List String → m Exit
  | failed, [] => return { status := if failed then .data else .ok }
  | failed, path :: paths => do
    match ← Desk.readFile path with
    | .error e => finish (some (.file e))
    | .ok bytes =>
      let source := Text.ofBytes bytes
      match (compile (Path.base path) source).result with
      | .ok _ => checkAll failed paths
      | .error ds =>
        Desk.printError ("# " ++ path ++ "\n" ++ ds.excerpt source ++ "\n")
        checkAll true paths

/-- Compiles without running. -/
def check (paths : List String) : m Exit := checkAll false paths

def printListing (p : Proto) : m Exit := do
  Desk.print (p.listing?.getD "")
  return {}

/-- Lists a script or an image. -/
def disassemble (path : String) : m Exit := do
  match ← Desk.readFile path with
  | .error e => finish (some (.file e))
  | .ok bytes =>
    if Image.isPath path then
      match Image.decode bytes with
      | .error e => finish (some (.image none e))
      | .ok p => printListing p
    else
      match (compile (Path.base path) (Text.ofBytes bytes)).result with
      | .error ds => finish (some (.refused ds))
      | .ok p => printListing p

/-- Writes the image of a script. -/
def build (path output : String) : m Exit := do
  match ← Desk.readFile path with
  | .error e => finish (some (.file e))
  | .ok bytes =>
    match (compile (Path.base path) (Text.ofBytes bytes)).result with
    | .error ds => finish (some (.refused ds))
    | .ok p =>
      match Image.encode p with
      | .error e => finish (some (.store e))
      | .ok image =>
        let output :=
          if output.isEmpty then Path.withoutExtension path ++ Image.extension else output
        match ← Desk.writeFile output image with
        | .error e => finish (some (.file e))
        | .ok () => return {}

end Command

end Parlance
