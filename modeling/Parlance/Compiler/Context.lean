/-
  One function under compilation: its code so far, and the names in it.
-/
import Parlance.Diagnostic
import Parlance.Opcode
import Parlance.Proto

namespace Parlance

def maxLocals : Nat := 256
def maxUpvalues : Nat := 256
def maxParameters : Nat := 255
def maxArguments : Nat := 255
def maxNesting : Nat := 64

/-- A variable of the function. -/
structure Local where
  name : String
  /-- The scope it belongs to; `none` until its initializer has ended. -/
  depth : Option Nat := none
  isCaptured : Bool := false
  deriving Repr, DecidableEq, Inhabited

/-- A variable of a function around: a slot of the next one, or one of its own captures. -/
structure Capture where
  index : UInt8
  isLocal : Bool
  deriving Repr, DecidableEq, Inhabited

theorem Capture.none_counted : 0 = (#[] : Array Capture).size := rfl

/-- A loop or a choice under way. -/
structure Breakable where
  isLoop : Bool
  localCount : Nat
  continueTarget : Nat
  /-- The jumps that leave it, to be aimed when it ends. -/
  breakJumps : Array Nat := #[]
  deriving Repr, DecidableEq, Inhabited

/-- A function under way. -/
structure Context where
  name : Option String := none
  arity : Nat := 0
  chunk : Chunk Constant := {}
  /-- The variables by slot. The first slot holds the function itself. -/
  locals : Array Local := #[⟨"", some 0, false⟩]
  captures : Array Capture := #[]
  upvalueCount : Nat := 0
  counted : upvalueCount = captures.size := by exact Capture.none_counted
  depth : Nat := 0
  breakables : List Breakable := []
  deriving Inhabited

namespace Context

/-- The function as it is so far. -/
def proto (c : Context) : Proto :=
  ⟨c.name, c.arity, c.upvalueCount, c.chunk.code, c.chunk.lines, c.chunk.constants.toList⟩

def findBelow? (locals : Array Local) (name : String) : Nat → Option Nat
  | 0 => none
  | slot + 1 =>
    match locals[slot]? with
    | some l => if l.name == name then some slot else findBelow? locals name slot
    | none => findBelow? locals name slot

/-- The slot of a name: the innermost declaration in the function wins. -/
def findLocal? (c : Context) (name : String) : Option Nat :=
  findBelow? c.locals name c.locals.size

/-- The initializer has not ended. -/
def isUnready (c : Context) (slot : Nat) : Bool :=
  match c.locals[slot]? with
  | some l => l.depth.isNone
  | none => false

def markCaptured (c : Context) (slot : Nat) : Context :=
  { c with locals := c.locals.modify slot fun l => { l with isCaptured := true } }

/-- The last variable can be read. -/
def markReady (c : Context) : Context :=
  { c with locals := c.locals.modify (c.locals.size - 1) fun l => { l with depth := some c.depth } }

/-- The captures, and how many they are. -/
def setCaptures (c : Context) (captures : Array Capture) : Context :=
  { c with captures, upvalueCount := captures.size, counted := rfl }

/-- The index of a capture, which is added if it is new; `none` if there is no room. -/
def addCapture (c : Context) (k : Capture) : Option Nat × Context :=
  match c.captures.findIdx? (· == k) with
  | some i => (some i, c)
  | none =>
    if c.captures.size == maxUpvalues then (none, c)
    else (some c.captures.size, c.setCaptures (c.captures.push k))

/-- The innermost scope has the name. -/
def declaredHere (c : Context) (name : String) : Bool :=
  let here := c.locals.toList.reverse.takeWhile fun l =>
    match l.depth with
    | some d => !(d < c.depth)
    | none => true
  here.any (·.name == name)

/-- The variables deeper than `depth`. -/
def endingLocals (c : Context) (depth : Nat) : List Local :=
  c.locals.toList.reverse.takeWhile fun l =>
    match l.depth with
    | some d => depth < d
    | none => false

/-- One more jump leaves the innermost loop or choice. -/
def addExit (c : Context) (jump : Nat) : Context :=
  match c.breakables with
  | b :: bs => { c with breakables := { b with breakJumps := b.breakJumps.push jump } :: bs }
  | [] => c

/-- What takes a variable off the stack. -/
def endOp (l : Local) : Op := if l.isCaptured then .closeUpvalue else .pop

end Context

/-- What resolving a name comes to. -/
structure Resolution where
  /-- The index among the captures of the innermost function; `none` if no function around has the
  name. -/
  index? : Option Nat
  inner : Context
  around : List Context
  complaints : List Complaint := []

/-- Captures a variable, if there is room. -/
def Resolution.forward (r : Resolution) (inner : Context) (k : Capture) : Resolution :=
  match inner.addCapture k with
  | (some i, inner) => { r with index? := some i, inner := inner }
  | (none, inner) =>
    { r with index? := some 0, inner := inner, complaints := r.complaints ++ [.limit .upvalues] }

/-- Resolves a name of a function around, which is forwarded through each function between. -/
def capture (name : String) (inner : Context) : List Context → Resolution
  | [] => ⟨none, inner, [], []⟩
  | c :: cs =>
    match c.findLocal? name with
    | some slot =>
      let complaints := if c.isUnready slot then [.misuse .ownInitializer] else []
      Resolution.forward ⟨none, inner, c.markCaptured slot :: cs, complaints⟩ inner
        ⟨UInt8.ofNat slot, true⟩
    | none =>
      let r := capture name c cs
      let around := r.inner :: r.around
      match r.index? with
      | some i => Resolution.forward ⟨none, inner, around, r.complaints⟩ inner ⟨UInt8.ofNat i, false⟩
      | none => ⟨none, inner, around, r.complaints⟩

end Parlance
