/-
  Values.
-/

namespace Parlance

/-- Names one allocated object. Serial numbers are not used twice. -/
structure Ref where
  serial : Nat
  deriving Repr, DecidableEq, Inhabited

/-- A value of a script. -/
inductive Value where
  | bool (b : Bool)
  | nul
  | number (x : Float)
  | object (r : Ref)
  deriving Repr, Inhabited

namespace Value

/-- Only `nul` and `faux` count as false. -/
def isFalsey : Value → Bool
  | nul => true
  | bool b => !b
  | _ => false

/-- Equality as scripts see it: by content, for objects by identity. -/
def same : Value → Value → Bool
  | bool a, bool b => a == b
  | nul, nul => true
  | number a, number b => a == b
  | object a, object b => a == b
  | _, _ => false

def isObject (r : Ref) : Value → Bool
  | object x => x == r
  | _ => false

def kindNames : List String := ["booleen", "nul", "nombre", "objet"]

end Value

end Parlance
