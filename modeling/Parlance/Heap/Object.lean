/-
  Objects on the heap.
-/
import Parlance.Value
import Parlance.Chunk

namespace Parlance

/-- A function on the heap. -/
structure Function where
  name : Option Ref := none
  arity : Int := 0
  upvalueCount : Int := 0
  chunk : Chunk Value := {}
  deriving Repr, Inhabited

/-- A captured variable. While it is open it stands for a slot of the stack; then it has a value of
its own. -/
structure Upvalue where
  isOpen : Bool
  slot : Nat
  closed : Value
  deriving Repr, Inhabited

/-- A function of the host, by its number among those registered. -/
structure Native where
  name : String
  /-- Negative for any number of arguments. -/
  arity : Int
  code : Option Nat
  deriving Repr, Inhabited

/-- Strings, functions, closures, captured variables and natives. -/
inductive Object where
  | text (chars : String) (hash : UInt32)
  | function (f : Function)
  /-- A function with the variables it has captured, `none` for those not filled in yet. -/
  | closure (function : Option Ref) (upvalues : Array (Option Ref))
  | upvalue (u : Upvalue)
  | native (n : Native)
  deriving Repr, Inhabited

namespace Object

def kindName : Object → String
  | text .. => "string"
  | function _ => "function"
  | closure .. => "closure"
  | upvalue _ => "upvalue"
  | native _ => "native"

def kindNames : List String := ["string", "function", "closure", "upvalue", "native"]

/-- The bytes that it is charged with. -/
def size : Object → Nat
  | text chars _ => 32 + chars.utf8ByteSize
  | function f =>
    64 + capacity f.chunk.code.size + 8 * capacity f.chunk.lines.size +
      32 * capacity f.chunk.constants.size
  | closure _ upvalues => 32 + 8 * upvalues.size
  | upvalue _ => 48
  | native _ => 48

/-- What is left of an object when it is swept. -/
def released : Object → Object
  | text _ hash => text "" hash
  | function f => function { f with chunk := {}, name := none }
  | closure .. => closure none #[]
  | upvalue u => upvalue { u with closed := .nul }
  | native n => native { n with code := none }

/-- What it refers to. -/
def children : Object → List Ref
  | text .. | native _ => []
  | upvalue u => values [u.closed]
  | function f => f.name.toList ++ values f.chunk.constants.toList
  | closure f upvalues => f.toList ++ upvalues.toList.filterMap id
where
  values (vs : List Value) : List Ref :=
    vs.filterMap fun
      | .object r => some r
      | _ => none

end Object

/-- An object, with its slot and mark. -/
structure Cell where
  object : Object
  slot : Nat
  charged : Int
  marked : Bool := false
  deriving Repr, Inhabited

end Parlance
