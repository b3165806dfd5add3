/-
  Instructions at work.
-/
import Parlance.Machine.Call
import Parlance.Number.Arithmetic

namespace Parlance.Exec

/-- Whether a run goes on. -/
inductive Progress where
  | running
  | finished
  deriving Repr, DecidableEq

/-- An operation on numbers. -/
def arithmetic (op : Op) (a b : Float) : Except Failure Value :=
  match op with
  | .greater => .ok (.bool (a > b))
  | .greaterEqual => .ok (.bool (a ≥ b))
  | .less => .ok (.bool (a < b))
  | .lessEqual => .ok (.bool (a ≤ b))
  | .subtract => .ok (.number (a - b))
  | .multiply => .ok (.number (a * b))
  | .divide => if b == 0 then .error .divisionByZero else .ok (.number (a / b))
  | .modulo => if b == 0 then .error .moduloByZero else .ok (.number (Number.remainder a b))
  | _ => .ok .nul

def performArithmetic (op : Op) (S : Slots := .stack) : Exec Unit := do
  let top ← S.peek 0
  match top, ← (match top with | .number _ => S.peek 1 | _ => pure .nul) with
  | .number b, .number a =>
    discard S.pop
    discard S.pop
    match arithmetic op a b with
    | .ok v => S.push v
    | .error e => raise e S
  | _, _ => raise .operandsNotNumbers S

def charsOf : Value → Exec (Option String)
  | .object r => do pure ((← get).heap.chars? r)
  | _ => pure none

/-- Adds numbers or joins texts. -/
def performAdd (S : Slots := .stack) : Exec Unit := do
  let b ← S.peek 0
  let a ← S.peek 1
  match a, b with
  | .number x, .number y =>
    discard S.pop
    discard S.pop
    S.push (.number (x + y))
  | _, _ =>
    match ← charsOf a, ← charsOf b with
    | some s, some t =>
      let key ← intern (s ++ t)
      discard S.pop
      discard S.pop
      S.push (.object key.ref)
    | _, _ => raise .operandsNotAddable S

def texts (vs : List Value) : Exec String :=
  vs.foldlM (fun acc v => do pure (acc ++ (← text v))) ""

/-- Prints values. -/
def performPrint (n : Nat) (S : Slots := .stack) : Exec Unit := do
  let vs ← S.top n
  let line ← texts vs
  modify fun m =>
    { m with out := m.out ++ line ++ "\n", stack := m.stack.cutTo (m.stack.depth - n) }

/-- Fills in the captured variables of a new closure from number `i` on, `count` of them: each is a
slot of the function around it, or one of that function's own captured variables. -/
def fillUpvalues (closure : Ref) (f : Frame) (count i : Nat) (S : Slots := .stack) : Exec Unit :=
  match count with
  | 0 => pure ()
  | count + 1 => do
    let kind ← readByte
    let index ← readByte
    let captured ←
      if kind == 1 then do pure (some (← S.capture (f.base + index.toNat)))
      else upvalueOf f.closure index.toNat
    match ← object closure with
    | .closure function upvalues =>
      setObject closure (.closure function (upvalues.setIfInBounds i captured))
    | _ => fault
    fillUpvalues closure f count (i + 1) S

/-- Makes a closure with its captures. -/
def performClosure (S : Slots := .stack) : Exec Unit := do
  let r ← match ← readConstant with
    | .object r => pure r
    | _ => fault
  let closure ← newClosure r
  S.push (.object closure)
  let f ← frame
  match ← object closure with
  | .closure _ upvalues => fillUpvalues closure f upvalues.size 0 S
  | _ => fault

/-- Ends a call. -/
def performReturn (S : Slots := .stack) : Exec Progress := do
  let result ← S.pop
  let f ← frame
  S.closeFrom f.base
  modify fun m => { m with frames := m.frames.pop }
  if (← get).frames.isEmpty then
    cutTo 0
    pure .finished
  else
    cutTo f.base
    S.push result
    pure .running

/-- Changes a global, if there is one. -/
def performSetGlobal (S : Slots := .stack) : Exec Unit := do
  let key ← symbol (← readConstant)
  let v ← S.peek 0
  let m ← get
  let (isNew, globals) := m.globals.set key v
  if isNew then
    set { m with globals := (globals.erase key).2 }
    raise (.undefinedVariable key.text) S
  else set { m with globals }

/-- Performs an instruction. -/
def perform (host : Host) (op : Op) (S : Slots := .stack) : Exec Progress := do
  match op with
  | .constant => S.push (← readConstant)
  | .pushNul => S.push .nul
  | .pushTrue => S.push (.bool true)
  | .pushFalse => S.push (.bool false)
  | .pop => discard S.pop
  | .getLocal =>
    let slot ← readByte
    let f ← frame
    S.push (← S.read (f.base + slot.toNat))
  | .setLocal =>
    let slot ← readByte
    let f ← frame
    S.write (f.base + slot.toNat) (← S.peek 0)
  | .getGlobal =>
    let key ← symbol (← readConstant)
    match (← get).globals.get? key with
    | some v => S.push v
    | none => raise (.undefinedVariable key.text) S
  | .defineGlobal =>
    let key ← symbol (← readConstant)
    let v ← S.peek 0
    modify fun m => { m with globals := (m.globals.set key v).2 }
    discard S.pop
  | .setGlobal => performSetGlobal S
  | .getUpvalue =>
    let slot ← readByte
    S.push (← S.readShared (← need (← upvalueOf (← frame).closure slot.toNat)))
  | .setUpvalue =>
    let slot ← readByte
    let captured ← upvalueOf (← frame).closure slot.toNat
    let v ← S.peek 0
    S.writeShared (← need captured) v
  | .equal =>
    let b ← S.pop
    let a ← S.pop
    S.push (.bool (a.same b))
  | .notEqual =>
    let b ← S.pop
    let a ← S.pop
    S.push (.bool !(a.same b))
  | .greater | .greaterEqual | .less | .lessEqual | .subtract | .multiply | .divide | .modulo =>
    performArithmetic op S
  | .add => performAdd S
  | .not => S.push (.bool (← S.pop).isFalsey)
  | .negate =>
    match ← S.peek 0 with
    | .number x =>
      discard S.pop
      S.push (.number (-x))
    | _ => raise .operandNotNumber S
  | .print => performPrint (← readByte).toNat S
  | .jump =>
    let offset ← readShort
    jumpTo ((← frame).ip + offset)
  | .jumpIfFalse =>
    let offset ← readShort
    if (← S.peek 0).isFalsey then jumpTo ((← frame).ip + offset)
  | .loop =>
    let offset ← readShort
    let ip := (← frame).ip
    if offset ≤ ip then jumpTo (ip - offset) else fault
  | .call =>
    let argc ← readByte
    callValue host (← S.peek argc.toNat) argc.toNat S
  | .closure => performClosure S
  | .closeUpvalue =>
    S.closeFrom ((← get).stack.depth - 1)
    discard S.pop
  | .return => return ← performReturn S
  pure .running

def noteInstruction (S : Slots := .stack) : Exec Unit := do
  let m ← get
  let shown ← (S.values m).foldlM (fun acc v => do pure (acc ++ "[ " ++ (← text v) ++ " ]"))
    "          "
  let f ← frame
  let function ← functionOf f
  let (line, _) ← need (listInstruction? m.heap.pool function.chunk f.ip)
  note (shown ++ "\n" ++ (line.dropEndWhile (· == '\n')).toString)

/-- One turn of the machine: stops if asked to, notes the instruction if it should, and performs it.
-/
def step (host : Host) (S : Slots := .stack) : Exec Progress := do
  if (← get).interrupted then
    modify fun m => { m with interrupted := false }
    raise .interrupted S
  if (← get).settings.traceExecution then noteInstruction S
  let byte ← readByte
  match Op.ofByte? byte with
  | some op => perform host op S
  | none => raise (.unknownInstruction byte) S

end Parlance.Exec
