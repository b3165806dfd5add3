/-
  The state of a compilation, and its elementary moves.

  * Tokens: `advance`, `check`, `accept`, `expect`. After a complaint no other is noted until the
    parser has found its feet again.
  * Code: `emit…`, jumps and loops. Each byte has the line of the token before.
-/
import Parlance.Compiler.Context
import Parlance.Token

namespace Parlance

/-- The tokens left, the token of now and the one before, diagnostics, and the functions under way.
-/
structure Compilation where
  rest : List Token
  current : Token := ⟨.leftParen, "", {}⟩
  previous : Token := ⟨.leftParen, "", {}⟩
  panicking : Bool := false
  diagnostics : Array Diagnostic := #[]
  builds : Array Build := #[]
  context : Context := {}
  around : List Context := []
  deriving Inhabited

/-- A move of the compiler. -/
abbrev Comp := StateM Compilation

namespace Compilation

/-! ## Complaints -/

/-- Notes a complaint, unless panicking. -/
def complainAt (s : Compilation) (t : Token) (c : Complaint) : Compilation :=
  if s.panicking then s
  else
    let place : Place := match t.kind with
      | .eof => .atEnd
      | .error => .nowhere
      | _ => .at t.text
    { s with panicking := true, diagnostics := s.diagnostics.push ⟨c, place, t.location⟩ }

/-! ## Tokens -/

/-- Takes the next token that is no lexical error, and complains about those before it. -/
def fetch (s : Compilation) : List Token → Compilation
  | [] => { s with rest := [], current := ⟨.eof, "", s.current.location⟩ }
  | t :: ts =>
    if t.kind == .error then (s.complainAt t (.lexical t.text)).fetch ts
    else { s with rest := ts, current := t }

/-- The token of now becomes the one before. At the end of the text there is no further one. -/
def advance (s : Compilation) : Compilation :=
  let s := { s with previous := s.current }
  if s.current.kind == .eof then s else s.fetch s.rest

end Compilation

namespace Comp

/-- A complaint at the token before. -/
def complain (c : Complaint) : Comp Unit := modify fun s => s.complainAt s.previous c

def complainIf (b : Bool) (c : Complaint) : Comp Unit := do
  if b then complain c

/-- A complaint at the token of now. -/
def complainHere (c : Complaint) : Comp Unit := modify fun s => s.complainAt s.current c

/-- Passes over a token. -/
def advance : Comp Unit := modify Compilation.advance

def check (k : Token.Kind) : Comp Bool := return (← get).current.kind == k

/-- Passes over a token of the kind. -/
def accept (k : Token.Kind) : Comp Bool := do
  if ← check k then
    advance
    return true
  else
    return false

/-- Passes over it, or complains. -/
def expect (k : Token.Kind) (m : Missing) : Comp Unit := do
  if ← check k then advance else complainHere (.missing m)

def previous : Comp Token := return (← get).previous

/-! ## Code -/

def modifyContext (f : Context → Context) : Comp Unit :=
  modify fun s => { s with context := f s.context }

def codeSize : Comp Nat := return (← get).context.chunk.code.size

/-- Writes a byte of code. -/
def emitByte (b : UInt8) : Comp Unit :=
  modify fun s =>
    let line := s.previous.location.line
    { s with context := { s.context with chunk := s.context.chunk.write b line } }

def emit (op : Op) : Comp Unit := emitByte op.toByte

def emitWith (op : Op) (operand : UInt8) : Comp Unit := do
  emit op
  emitByte operand

/-- Writes a jump back. -/
def emitLoop (target : Nat) : Comp Unit := do
  emit .loop
  let offset := (← codeSize) - target + 2
  if 65535 < offset then complain (.limit .loopSize)
  emitByte (UInt8.ofNat (offset / 256))
  emitByte (UInt8.ofNat offset)

/-- Writes a jump that is not aimed yet. -/
def emitJump (op : Op) : Comp Nat := do
  emit op
  emitByte 255
  emitByte 255
  return (← codeSize) - 2

/-- Aims the jump whose distance stands at `offset` at the end of the code. -/
def patchJump (offset : Nat) : Comp Unit := do
  let distance := (← codeSize) - offset - 2
  if 65535 < distance then complain (.limit .jumpSize)
  else
    modifyContext fun c =>
      { c with chunk := (c.chunk.patchShort offset distance).2 }

def patchJump? : Option Nat → Comp Unit
  | some offset => patchJump offset
  | none => pure ()

def emitReturn : Comp Unit := do
  emit .pushNul
  emit .return

/-- Notes a step for the heap. -/
def record (b : Build) : Comp Unit := modify fun s => { s with builds := s.builds.push b }

/-- The operand that names the constant with this index. Code can name the first of them only. -/
def operandAt (index : Nat) : Comp UInt8 := do
  if maxConstants ≤ index then
    complain (.limit .constants)
    return 0
  else
    return UInt8.ofNat index

/-- Adds a constant to the pool. -/
def poolIndex (k : Constant) : Comp UInt8 := do
  let index := (← get).context.chunk.constants.size
  modifyContext fun c => { c with chunk := c.chunk.addConstant k }
  operandAt index

/-- Puts a constant into the pool. -/
def makeConstant (k : Constant) : Comp UInt8 := do
  record (.constant k)
  poolIndex k

def emitConstant (k : Constant) : Comp Unit := do
  emitWith .constant (← makeConstant k)

/-! ## Functions -/

/-- Begins a function inside. -/
def beginFunction (name : String) : Comp Unit :=
  modify fun s => { s with
    around := s.context :: s.around
    context := { name := some name }
    builds := s.builds.push (.enter (some name)) }

/-- Ends the code of the function. -/
def finishFunction : Comp Proto := do
  emitReturn
  let s ← get
  let p := s.context.proto
  set { s with builds := s.builds.push (.leave p s.diagnostics.isEmpty) }
  return p

/-- Goes back to the function around. -/
def endFunction : Comp (Proto × Array Capture) := do
  let p ← finishFunction
  let captures := (← get).context.captures
  modify fun s =>
    match s.around with
    | c :: cs => { s with context := c, around := cs }
    | [] => s
  return (p, captures)

/-! ## Scopes -/

/-- Begins a scope. -/
def beginScope : Comp Unit := modifyContext fun c => { c with depth := c.depth + 1 }

def emitAll : List Op → Comp Unit
  | [] => pure ()
  | op :: ops => do
    emit op
    emitAll ops

/-- Ends a scope with its variables. -/
def endScope : Comp Unit := do
  modifyContext fun c => { c with depth := c.depth - 1 }
  let c := (← get).context
  let ending := c.endingLocals c.depth
  emitAll (ending.map Context.endOp)
  modifyContext fun c => { c with locals := c.locals.take (c.locals.size - ending.length) }

/-- Takes the locals from slot `count` on off the stack, for a jump; they stay declared. -/
def discardLocals (count : Nat) : Comp Unit := do
  let c := (← get).context
  emitAll ((c.locals.toList.drop count).reverse.map Context.endOp)

/-- Begins a loop or a choice. -/
def beginBreakable (isLoop : Bool) (continueTarget : Nat) : Comp Unit := do
  if maxNesting ≤ (← get).context.breakables.length then complain (.limit .nesting)
  modifyContext fun c =>
    { c with breakables := ⟨isLoop, c.locals.size, continueTarget, #[]⟩ :: c.breakables }

def patchAll : List Nat → Comp Unit
  | [] => pure ()
  | offset :: offsets => do
    patchJump offset
    patchAll offsets

/-- Ends it, and aims its jumps. -/
def endBreakable : Comp Unit := do
  match (← get).context.breakables with
  | [] => pure ()
  | b :: bs =>
    modifyContext fun c => { c with breakables := bs }
    patchAll b.breakJumps.toList

/-! ## Names -/

/-- The index of the constant that names `name`, which is added if the pool has none. The heap looks
for the string itself, and is told where its text was found. -/
def nameConstant (name : String) : Comp UInt8 := do
  let chunk := (← get).context.chunk
  match chunk.firstIndex? (·.isText name) with
  | some index =>
    record (.name name index)
    return UInt8.ofNat index
  | none =>
    record (.name name chunk.constants.size)
    poolIndex (.text name)

/-- Adds a variable to the frame. -/
def addLocal (name : String) : Comp Unit := do
  if (← get).context.locals.size == maxLocals then complain (.limit .locals)
  else modifyContext fun c => { c with locals := c.locals.push { name := name } }

/-- Declares the name before. -/
def declareLocal : Comp Unit := do
  let s ← get
  if 0 < s.context.depth then
    let name := s.previous.text
    if s.context.declaredHere name then complain (.misuse .duplicateLocal)
    addLocal name

/-- Reads a name to be declared; outside of scopes the result is the index of its constant. -/
def declareName (m : Missing) : Comp UInt8 := do
  expect .identifier m
  declareLocal
  let s ← get
  if 0 < s.context.depth then return 0 else nameConstant s.previous.text

/-- The last variable can be read. -/
def markReady : Comp Unit := do
  if 0 < (← get).context.depth then modifyContext Context.markReady

/-- Binds a declared name to a value. -/
def defineVariable (index : UInt8) : Comp Unit := do
  if 0 < (← get).context.depth then modifyContext Context.markReady
  else emitWith .defineGlobal index

def complainAll : List Complaint → Comp Unit
  | [] => pure ()
  | c :: cs => do
    complain c
    complainAll cs

/-- How a variable is read and written. -/
structure Access where
  read : Op
  write : Op
  operand : UInt8

/-- A local of the function `c`, which may not be read in its own initializer. -/
def accessLocal (c : Context) (slot : Nat) : Comp Access := do
  if c.isUnready slot then complain (.misuse .ownInitializer)
  return ⟨.getLocal, .setLocal, UInt8.ofNat slot⟩

/-- A name that has been looked for in the functions around. -/
def accessOther (name : String) (r : Resolution) : Comp Access := do
  complainAll r.complaints
  match r.index? with
  | some i => return ⟨.getUpvalue, .setUpvalue, UInt8.ofNat i⟩
  | none => return ⟨.getGlobal, .setGlobal, ← nameConstant name⟩

/-- What `name` stands for: a local, a variable of a function around, or else a global. -/
def resolve (name : String) : Comp Access := do
  let s ← get
  match s.context.findLocal? name with
  | some slot => accessLocal s.context slot
  | none =>
    let r := capture name s.context s.around
    set { s with context := r.inner, around := r.around }
    accessOther name r

end Comp

end Parlance
