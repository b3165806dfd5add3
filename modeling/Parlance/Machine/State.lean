/-
  The state of the machine, and its moves on it.
-/
import Parlance.Heap.Allocation

namespace Parlance

/-! ## Errors -/

/-- Something that sound code never does, or a host routine that gave up. -/
inductive Fault where
  /-- An access outside the stack or the code, or to a value of another kind. -/
  | machine
  | host (message : String)
  deriving Repr, DecidableEq

def Fault.text : Fault → String
  | machine => "#"
  | host message => message

/-- Why a run fails. -/
inductive Failure where
  | interrupted
  | undefinedVariable (name : String)
  | argumentCount (name : String) (expected given : Int)
  | stackOverflow
  | notCallable (type : String)
  | operandsNotNumbers
  | operandNotNumber
  | operandsNotAddable
  | divisionByZero
  | moduloByZero
  | unknownInstruction (byte : UInt8)
  | native (message : String)
  | fault (f : Fault)
  deriving Repr, DecidableEq

def Failure.message : Failure → String
  | interrupted => "Exécution interrompue."
  | undefinedVariable name => "Variable non définie '" ++ name ++ "'."
  | argumentCount name expected given =>
    "La fonction '" ++ name ++ s!"' attend {expected} arguments mais en a reçu {given}."
  | stackOverflow => "Débordement de pile."
  | notCallable type => "Impossible d'appeler une valeur de type '" ++ type ++ "'."
  | operandsNotNumbers => "Les opérandes doivent être des nombres."
  | operandNotNumber => "L'opérande doit être un nombre."
  | operandsNotAddable => "Les opérandes doivent être deux nombres ou deux chaînes."
  | divisionByZero => "Division par zéro."
  | moduloByZero => "Modulo par zéro."
  | unknownInstruction byte => "Instruction inconnue " ++ toString byte.toNat ++ "."
  | native message => message
  | fault f => "Erreur interne de la machine : " ++ f.text ++ "."

/-- A call in a backtrace. -/
structure TraceEntry where
  line : Int
  function : String
  deriving Repr, DecidableEq

def TraceEntry.text (t : TraceEntry) : String :=
  s!"[ligne {t.line}] dans " ++ if t.function.isEmpty then "le script" else t.function ++ "()"

/-- A failure with its backtrace. -/
structure RuntimeError where
  failure : Failure
  trace : List TraceEntry := []
  file : String := ""
  line : Int := 0
  deriving Repr, DecidableEq

def RuntimeError.message (e : RuntimeError) : String :=
  Text.join "\n" (e.failure.message :: e.trace.map TraceEntry.text)

/-- How a computation can end early. -/
inductive Halt where
  | failed (e : RuntimeError)
  | fault (f : Fault)
  deriving Repr, DecidableEq

/-! ## The machine -/

/-- How a machine is set up. -/
structure Settings where
  heap : HeapSettings := {}
  printCode : Bool := false
  traceExecution : Bool := false
  maxFrames : Int := 64
  deriving Repr, Inhabited

/-- The state of a machine. -/
structure Machine where
  settings : Settings
  heap : Heap
  stack : Stack := {}
  frames : Array Frame := #[]
  globals : Table Value := {}
  /-- The captured variables that still live on the stack, the highest slot first. -/
  openUpvalues : List Ref := []
  interrupted : Bool := false
  file : String := ""
  out : String := ""
  reports : String := ""
  clock : Nat := 0
  seed : UInt64 := 0x2545F4914F6CDD1D
  deriving Inhabited

/-- A computation on the machine that can end early. What it did until then stays done. -/
abbrev Exec := EStateM Halt Machine

namespace Machine

def new (settings : Settings) : Machine := { settings, heap := .new settings.heap }

/-- What is in use. -/
@[inline] def roots (m : Machine) : Roots :=
  { stack := m.stack, frames := m.frames, openUpvalues := m.openUpvalues, globals := m.globals }

def global? (m : Machine) (name : String) : Option Value :=
  (m.heap.strings.findText? name (hashText name)).bind m.globals.get?

def globalNames (m : Machine) : List String := m.globals.entriesList.map (·.1.text)

end Machine

/-! ## Moves -/

namespace Exec

variable {α : Type}

/-- Sound code never comes here. -/
def fault : Exec α := throw (.fault .machine)

/-- What has to be there. -/
@[inline] def need : Option α → Exec α
  | some a => pure a
  | none => fault

/-- Pushes a value. -/
def push (v : Value) : Exec Unit := modify fun m => { m with stack := m.stack.push v }

/-- Pops a value. -/
def pop : Exec Value := do
  let m ← get
  match m.stack.pop? with
  | some (v, stack) =>
    set { m with stack }
    pure v
  | none => fault

def peek (distance : Nat) : Exec Value := do need ((← get).stack.peek? distance)

def top (count : Nat) : Exec (List Value) := do need ((← get).stack.top? count)

def getSlot (i : Nat) : Exec Value := do need ((← get).stack.get? i)

def setSlot (i : Nat) (v : Value) : Exec Unit := do
  if i < (← get).stack.depth then modify fun m => { m with stack := m.stack.put i v }
  else fault

/-- Sets the depth of the stack. -/
def cutTo (depth : Nat) : Exec Unit := modify fun m => { m with stack := m.stack.cutTo depth }

def text (v : Value) : Exec String := do need ((← get).heap.text? v)

def typeName (v : Value) : Exec String := do need ((← get).heap.typeName? v)

def object (r : Ref) : Exec Object := do need ((← get).heap.object? r)

def setObject (r : Ref) (o : Object) : Exec Unit :=
  modify fun m => { m with heap := m.heap.setObject r o }

def symbol : Value → Exec Symbol
  | .object r => do need ((← get).heap.symbol? r)
  | _ => fault

def function (r : Ref) : Exec Function := do need ((← get).heap.function? r)

/-- A new object. -/
def allocate (o : Object) : Exec Ref := do
  let m ← get
  let (r, heap) := m.heap.allocate m.roots o
  set { m with heap }
  pure r

/-- The string with a text. -/
def intern (text : String) : Exec Symbol := do
  let m ← get
  let (key, heap) := m.heap.intern m.roots text
  set { m with heap }
  pure key

def collect : Exec Unit := modify fun m => { m with heap := m.heap.collect m.roots }

def note (message : String) : Exec Unit := modify fun m => { m with heap := m.heap.note message }

/-! ## Code -/

/-- The call of now. -/
def frame : Exec Frame := do need (← get).frames.back?

/-- The function of a call. -/
def functionOf (f : Frame) : Exec Function := do
  let m ← get
  match m.heap.object? f.closure with
  | some (.closure (some r) _) => need (m.heap.function? r)
  | _ => fault

/-- Goes on elsewhere in the code. -/
def jumpTo (ip : Nat) : Exec Unit :=
  modify fun m => { m with frames := m.frames.modify (m.frames.size - 1) fun f => { f with ip } }

/-- The next byte of code. -/
def readByte : Exec UInt8 := do
  let f ← frame
  let b ← need (← functionOf f).chunk.code[f.ip]?
  jumpTo (f.ip + 1)
  pure b

def readShort : Exec Nat := do
  let f ← frame
  let n ← need ((← functionOf f).chunk.short? f.ip)
  jumpTo (f.ip + 2)
  pure n

/-- The constant of the next byte. -/
def readConstant : Exec Value := do
  let f ← frame
  let code ← functionOf f
  let b ← need code.chunk.code[f.ip]?
  jumpTo (f.ip + 1)
  need code.chunk.constants[b.toNat]?

end Exec

end Parlance
