/-
  Expressions.

  Binary operators group to the left: their right side binds one step tighter. `et`, `ou` and `?:`
  group to the right. A value may be assigned only where the whole expression is open to assignment,
  and only to a name.
-/
import Parlance.Compiler.Goal
import Parlance.Number.Reading

namespace Parlance.Comp

/-- How expressions begin. -/
inductive Opening where
  | grouping | unary | increment | variable | string | number | literal | reserved
  deriving Repr, DecidableEq

def opening? : Token.Kind → Option Opening
  | .leftParen => some .grouping
  | .minus | .bang => some .unary
  | .plusPlus | .minusMinus => some .increment
  | .identifier => some .variable
  | .string => some .string
  | .number => some .number
  | .vrai | .faux | .nul => some .literal
  | .ceci | .super => some .reserved
  | _ => none

/-- How tightly an operator binds. -/
def bindingPower : Token.Kind → Precedence
  | .leftParen => .call
  | .minus | .plus => .term
  | .slash | .star | .percent => .factor
  | .bangEqual | .equal => .equality
  | .greater | .greaterEqual | .less | .lessEqual => .comparison
  | .question => .conditional
  | .et => .and
  | .ou => .or
  | _ => .none

def binaryOp? : Token.Kind → Option Op
  | .plus => some .add
  | .minus => some .subtract
  | .star => some .multiply
  | .slash => some .divide
  | .percent => some .modulo
  | .equal => some .equal
  | .bangEqual => some .notEqual
  | .greater => some .greater
  | .greaterEqual => some .greaterEqual
  | .less => some .less
  | .lessEqual => some .lessEqual
  | _ => none

/-- The operator in `+=` and its like. -/
def compoundOp? : Token.Kind → Option Op
  | .plusAssign => some .add
  | .minusAssign => some .subtract
  | .starAssign => some .multiply
  | .slashAssign => some .divide
  | .percentAssign => some .modulo
  | _ => none

def acceptCompound : Comp (Option Op) := do
  match compoundOp? (← get).current.kind with
  | some op =>
    advance
    return some op
  | none => return none

def incrementOp (k : Token.Kind) : Op := if k == .minusMinus then .subtract else .add

/-- Changes a variable by one. The new value stays on the stack. -/
def emitChange (v : Access) (op : Op) : Comp Unit := do
  emitWith v.read v.operand
  emitConstant (.number 1)
  emit op
  emitWith v.write v.operand

/-- A change by one behind a name, or its value. -/
def parseStep (v : Access) : Comp Unit := do
  let up ← accept .plusPlus
  if ← (if up then pure true else accept .minusMinus) then
    -- the old value stays on the stack
    emitWith v.read v.operand
    emitChange v (incrementOp (← previous).kind)
    emit .pop
  else
    emitWith v.read v.operand

/-- What follows a name, behind the sign of an assignment with an operation if there is one. -/
def parseCompound (self : Recur) (v : Access) : Option Op → Comp Unit
  | some op => do
    emitWith v.read v.operand
    self (.expression .assignment)
    emit op
    emitWith v.write v.operand
  | none => parseStep v

/-- What follows a name that is open to assignment. -/
def parseChange (self : Recur) (v : Access) : Comp Unit := do
  if ← accept .assign then
    self (.expression .assignment)
    emitWith v.write v.operand
  else
    parseCompound self v (← acceptCompound)

/-- A variable, read or written. -/
def parseVariable (self : Recur) (name : String) (canAssign : Bool) : Comp Unit := do
  let v ← resolve name
  if canAssign then parseChange self v else parseStep v

def parseIncrement : Comp Unit := do
  let sign ← previous
  expect .identifier .operandName
  let name ← previous
  if name.kind == .identifier then emitChange (← resolve name.text) (incrementOp sign.kind)

/-- The operand that a token opens. -/
def parseOpening (self : Recur) (o : Opening) (canAssign : Bool) : Comp Unit := do
  let t ← previous
  match o with
  | .grouping =>
    self (.expression .assignment)
    expect .rightParen .groupParen
  | .unary =>
    self (.expression .unary)
    emit (if t.kind == .minus then .negate else .not)
  | .increment => parseIncrement
  | .variable => parseVariable self t.text canAssign
  | .string => emitConstant (.text t.text)
  | .number =>
    match Number.read? t.text with
    | some x => emitConstant (.number x)
    | none => complain (.misuse .badNumber)
  | .literal =>
    emit (if t.kind == .vrai then .pushTrue else if t.kind == .faux then .pushFalse else .pushNul)
  | .reserved => complain (.reserved t.text)

/-- Ends the arguments of a call. -/
def finishCall (count : Nat) : Comp Unit := do
  expect .rightParen .argumentsParen
  emitWith .call (UInt8.ofNat count)

/-- An expression of a row that has `count` before it and at most `bound`, and what follows it: the
rest of the row behind a comma, or its end. -/
def parseRow (self : Recur) (bound : Nat) (l : Limit) (count : Nat) (rest : Goal)
    (finish : Comp Unit) : Comp Unit := do
  self (.expression .assignment)
  complainIf (count == bound) (.limit l)
  if ← accept .comma then self rest else finish

def parseArguments (self : Recur) (count : Nat) : Comp Unit :=
  parseRow self maxArguments .arguments count (.arguments (count + 1)) (finishCall (count + 1))

/-- An operator and its right side. -/
def parseOperator (self : Recur) : Comp Unit := do
  let k := (← previous).kind
  match k with
  | .leftParen => if ← check .rightParen then finishCall 0 else self (.arguments 0)
  | .et =>
    let done ← emitJump .jumpIfFalse
    emit .pop
    self (.expression .and)
    patchJump done
  | .ou =>
    let other ← emitJump .jumpIfFalse
    let done ← emitJump .jump
    patchJump other
    emit .pop
    self (.expression .or)
    patchJump done
  | .question =>
    let other ← emitJump .jumpIfFalse
    emit .pop
    self (.expression .conditional)
    expect .colon .conditionalColon
    let done ← emitJump .jump
    patchJump other
    emit .pop
    self (.expression .conditional)
    patchJump done
  | _ =>
    self (.expression (bindingPower k).next)
    match binaryOp? k with
    | some op => emit op
    | none => pure ()

/-- Operators as long as they bind at least as tightly as `p`, then no sign of assignment. -/
def parseOperators (self : Recur) (p : Precedence) (canAssign : Bool) : Comp Unit := do
  if p.rank ≤ (bindingPower (← get).current.kind).rank then
    advance
    parseOperator self
    self (.operators p canAssign)
  else if canAssign then
    let assigned ← accept .assign
    if assigned || (← if assigned then pure none else acceptCompound).isSome then
      complain .badTarget

/-- What follows the token that begins an expression, if it can begin one. -/
def parseOperand (self : Recur) (p : Precedence) : Option Opening → Comp Unit
  | none => complain .noExpression
  | some o => do
    let canAssign := p.rank ≤ Precedence.assignment.rank
    parseOpening self o canAssign
    self (.operators p canAssign)

def parseExpression (self : Recur) (p : Precedence) : Comp Unit := do
  advance
  parseOperand self p (opening? (← previous).kind)

end Parlance.Comp
