/-
  Calls, captured variables and failures.
-/
import Parlance.Machine.State

namespace Parlance

namespace Exec

variable {α : Type}

/-! ## Captured variables -/

/-- A captured variable. -/
def upvalue (r : Ref) : Exec Upvalue := do
  match ← object r with
  | .upvalue u => pure u
  | _ => fault

/-- Gives the open variables in `us` at or above slot `last` a value of their own. The list is
sorted by falling slots. -/
def closeList (last : Nat) : List Ref → Exec Unit
  | [] => pure ()
  | r :: rest => do
    let u ← upvalue r
    if last ≤ u.slot then
      let v ← need ((← get).stack.get? u.slot)
      setObject r (.upvalue { u with isOpen := false, closed := v })
      modify fun m => { m with openUpvalues := rest }
      closeList last rest

/-- Closes the variables from a slot on. -/
def closeFrom (last : Nat) : Exec Unit := do closeList last (← get).openUpvalues

def splitOpen (slot : Nat) : List Ref → Exec (List Ref × List Ref)
  | [] => pure ([], [])
  | r :: rest => do
    if slot < (← upvalue r).slot then
      let (above, others) ← splitOpen slot rest
      pure (r :: above, others)
    else pure ([], r :: rest)

/-- The captured variable of a slot: one for all closures that capture it while it is open. -/
def capture (slot : Nat) : Exec Ref := do
  let (above, others) ← splitOpen slot (← get).openUpvalues
  let known ← match others with
    | r :: _ => do pure (if (← upvalue r).slot == slot then some r else none)
    | [] => pure none
  match known with
  | some r => pure r
  | none =>
    let r ← allocate (.upvalue { isOpen := true, slot, closed := .nul })
    modify fun m => { m with openUpvalues := above ++ r :: others }
    pure r

/-- The value of a captured variable. -/
def readUpvalue (r : Ref) : Exec Value := do
  let u ← upvalue r
  if u.isOpen then need ((← get).stack.get? u.slot) else pure u.closed

/-- Changes a captured variable. -/
def writeUpvalue (r : Ref) (v : Value) : Exec Unit := do
  let u ← upvalue r
  if u.isOpen then setSlot u.slot v else setObject r (.upvalue { u with closed := v })

def upvalueOf (closure : Ref) (i : Nat) : Exec (Option Ref) := do
  match ← object closure with
  | .closure _ upvalues => need upvalues[i]?
  | _ => fault

end Exec

/-! ## The variables of a machine -/

/-- How a machine keeps its variables: the values on its stack, and what closures share of them. -/
structure Slots where
  /-- The values on the stack, from the bottom. -/
  view : Heap → Stack → List Value
  push : Value → Exec Unit
  pop : Exec Value
  /-- The value at a distance from the top. -/
  peek : (distance : Nat) → Exec Value
  /-- The topmost values, the last one on top. -/
  top : (count : Nat) → Exec (List Value)
  /-- The value of a slot. -/
  read : (slot : Nat) → Exec Value
  write : (slot : Nat) → Value → Exec Unit
  /-- What closures share of a slot. -/
  capture : (slot : Nat) → Exec Ref
  readShared : Ref → Exec Value
  writeShared : Ref → Value → Exec Unit
  /-- Called before the slots from the given one on are given up. -/
  closeFrom : (slot : Nat) → Exec Unit

/-- Values are kept on the stack. What closures share of a slot is the slot itself as long as it is
there, and a value of its own from then on. -/
@[reducible] def Slots.stack : Slots where
  view _ s := s.toList
  push := Exec.push
  pop := Exec.pop
  peek := Exec.peek
  top := Exec.top
  read := Exec.getSlot
  write := Exec.setSlot
  capture := Exec.capture
  readShared := Exec.readUpvalue
  writeShared := Exec.writeUpvalue
  closeFrom := Exec.closeFrom

abbrev Slots.values (S : Slots) (m : Machine) : List Value := S.view m.heap m.stack

namespace Exec

variable {α : Type}

/-! ## Failures -/

/-- Drops the stack and the calls. -/
def resetStack (S : Slots := .stack) : Exec Unit := do
  S.closeFrom 0
  modify fun m => { m with stack := m.stack.cutTo 0, frames := #[] }

/-- The calls, the innermost first. -/
def traceOf : List Frame → Exec (List TraceEntry)
  | [] => pure []
  | f :: fs => do
    let function ← functionOf f
    let line ← need function.chunk.lines[f.ip - 1]?
    let name := ((← get).heap.nameOf function).getD ""
    let rest ← traceOf fs
    pure (⟨line, name⟩ :: rest)

/-- Ends the run with a failure. -/
def raise (failure : Failure) (S : Slots := .stack) : Exec α := do
  let m ← get
  let trace ← traceOf m.frames.toList.reverse
  resetStack S
  throw <| .failed <| match trace with
    | [] => { failure }
    | t :: _ => { failure, trace, file := m.file, line := t.line }

/-! ## Calls -/

/-- More captured variables than any closure can hold. -/
def upvalueRoom : Int := 1099511627776

/-- A closure without its captures. -/
def newClosure (r : Ref) : Exec Ref := do
  let f ← function r
  if 0 ≤ f.upvalueCount && f.upvalueCount < upvalueRoom then
    allocate (.closure (some r) (Array.replicate f.upvalueCount.toNat none))
  else fault

/-- Begins a call. -/
def enterCall (closure : Ref) (function : Option Ref) (argc : Nat) (S : Slots := .stack) :
    Exec Unit := do
  let f ← Exec.function (← need function)
  if (argc : Int) != f.arity then
    raise (.argumentCount ((← get).heap.displayName f) f.arity argc) S
  let m ← get
  if (m.frames.size : Int) == m.settings.maxFrames then raise .stackOverflow S
  set { m with frames := m.frames.push ⟨closure, 0, m.stack.depth - argc - 1⟩ }

end Exec

/-- What a native does with its arguments: a value, or the text of an error. It is told the name
under which it was registered. -/
abbrev Routine := (name : String) → List Value → Exec (Except String Value)

/-- The natives by their code. -/
abbrev Host := Array Routine

namespace Exec

/-- Calls a native. -/
def callNative (host : Host) (n : Native) (argc : Nat) (S : Slots := .stack) : Exec Unit := do
  if 0 ≤ n.arity && (argc : Int) != n.arity then raise (.argumentCount n.name n.arity argc) S
  let arguments ← S.top argc
  let base := (← get).stack.depth - argc
  let routine ← need (n.code.bind (host[·]?))
  match ← routine n.name arguments with
  | .error message => raise (.native message) S
  | .ok result =>
    cutTo (base - 1)
    S.push result

/-- Calls a value, if it can be called. -/
def callValue (host : Host) (callee : Value) (argc : Nat) (S : Slots := .stack) : Exec Unit := do
  match callee with
  | .object r =>
    match ← object r with
    | .closure function _ => enterCall r function argc S
    | .native n => callNative host n argc S
    | _ => raise (.notCallable (← typeName callee)) S
  | _ => raise (.notCallable (← typeName callee)) S

end Exec

namespace Machine

/-- An open variable becomes closed over what its slot holds, or over `nul`. -/
def abandonUpvalue (stack : Stack) (h : Heap) (r : Ref) : Heap :=
  match h.object? r with
  | some (.upvalue u) =>
    h.setObject r (.upvalue { u with isOpen := false, closed := (stack.get? u.slot).getD .nul })
  | _ => h

/-- Ends a run where it stands. -/
def abandon (m : Machine) : Machine :=
  { m with
    heap := m.openUpvalues.foldl (abandonUpvalue m.stack) m.heap
    openUpvalues := []
    stack := m.stack.cutTo 0
    frames := #[] }

end Machine

end Parlance
