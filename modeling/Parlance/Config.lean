/-
  Configuration files.
-/
import Parlance.Machine.State
import Parlance.Number.Text
import Parlance.Text.Case
import Parlance.Toml.Document

namespace Parlance

/-- The settings of a project. -/
structure Config where
  settings : Settings := {}
  path : String := ""
  deriving Inhabited

def Config.fileName : String := "zia.toml"

/-- A setting that is out of range. -/
inductive SettingError where
  | growFactor (x : Float)
  | threshold (n : Int)
  | maxFrames (n : Int)

def SettingError.message : SettingError → String
  | growFactor x => "gc.grow_factor must be at least 1, got " ++ Number.precise x
  | threshold n => s!"gc.initial_threshold must be positive, got {n}"
  | maxFrames n => s!"limits.frames_max must be within 1..256, got {n}"

/-- A file that is no TOML or has values of the wrong type, or a value out of range. -/
inductive ConfigError where
  | malformed (path : String)
  | setting (path : String) (e : SettingError)

def ConfigError.message : ConfigError → String
  | malformed path => "parsing " ++ path
  | setting path e => path ++ ": " ++ e.message

namespace Config

/-! ## Reading fields -/

def fieldsNamed (entries : Toml.Entries) (name : String) : List Toml.Node :=
  (entries.filter fun e => Text.folded e.1 == Text.folded name).map (·.2)

/-- Sets a field from every node under its name; `none` if one has the wrong type. -/
def readField {α β : Type} (read : Toml.Node → Option α) (set : α → β → β) (name : String)
    (entries : Toml.Entries) (b : β) : Option β :=
  (fieldsNamed entries name).foldlM (fun b node => (read node).map fun a => set a b) b

def truth? : Toml.Node → Option Bool
  | .value (.bool b) => some b
  | _ => none

def whole? : Toml.Node → Option Int
  | .value (.integer n) => some n
  | _ => none

/-- The whole numbers that every smaller one is told apart from as a float. -/
def exactLimit : Int := 9007199254740991

def number? : Toml.Node → Option Float
  | .value (.float x) => some x
  | .value (.integer n) =>
    if -exactLimit ≤ n && n ≤ exactLimit then some (Number.ofInt n) else none
  | _ => none

def entries? : Toml.Node → Option Toml.Entries
  | .table entries => some entries
  | _ => none

/-- Reads a table of settings, if it is there. -/
def readTable (name : String) (read : Toml.Entries → Settings → Option Settings)
    (root : Toml.Entries) (s : Settings) : Option Settings :=
  (fieldsNamed root name).foldlM (fun s node =>
    match entries? node with
    | some entries => read entries s
    | none => none) s

/-! ## Settings -/

def readHeap (entries : Toml.Entries) (s : Settings) : Option Settings := do
  let h ← readField truth? (fun b h => { h with stress := b }) "stress" entries s.heap
  let h ← readField truth? (fun b h => { h with log := b }) "log" entries h
  let h ← readField number? (fun x h => { h with growth := x }) "grow_factor" entries h
  let h ← readField whole? (fun n h => { h with threshold := n }) "initial_threshold" entries h
  some { s with heap := h }

def readDebug (entries : Toml.Entries) (s : Settings) : Option Settings := do
  let s ← readField truth? (fun b s => { s with printCode := b }) "print_code" entries s
  readField truth? (fun b s => { s with traceExecution := b }) "trace_execution" entries s

def readLimits (entries : Toml.Entries) (s : Settings) : Option Settings :=
  readField whole? (fun n s => { s with maxFrames := n }) "frames_max" entries s

def settings? (root : Toml.Entries) : Option Settings := do
  let s ← readTable "gc" readHeap root {}
  let s ← readTable "debug" readDebug root s
  readTable "limits" readLimits root s

/-- The settings are in range. -/
def check (s : Settings) : Except SettingError Unit :=
  if s.heap.growth < 1 then .error (.growFactor s.heap.growth)
  else if s.heap.threshold ≤ 0 then .error (.threshold s.heap.threshold)
  else if s.maxFrames < 1 || 256 < s.maxFrames then .error (.maxFrames s.maxFrames)
  else .ok ()

/-- Reads a file; what it does not set keeps its default. -/
def parse (path : String) (source : Array UInt8) : Except ConfigError Config :=
  match (Toml.parse? source).bind settings? with
  | none => .error (.malformed path)
  | some settings =>
    match check settings with
    | .error e => .error (.setting path e)
    | .ok () => .ok { settings, path }

end Config

end Parlance
