/-
  The stack of values.
-/
import Parlance.Value

namespace Parlance

/-- A row of cells and a depth. The cells above the depth keep what was popped from them. -/
structure Stack where
  cells : Array Value := #[]
  depth : Nat := 0
  deriving Repr, Inhabited

namespace Stack

/-- The values, the lowest first. -/
def toList (s : Stack) : List Value := s.cells.toList.take s.depth

def push (s : Stack) (v : Value) : Stack :=
  if s.depth < s.cells.size then
    { s with cells := s.cells.setIfInBounds s.depth v, depth := s.depth + 1 }
  else { s with cells := s.cells.push v, depth := s.depth + 1 }

def get? (s : Stack) (i : Nat) : Option Value := if i < s.depth then s.cells[i]? else none

/-- The value so far below the top. -/
def peek? (s : Stack) (distance : Int) : Option Value :=
  let i := (s.depth : Int) - 1 - distance
  if 0 ≤ i then s.get? i.toNat else none

def pop? (s : Stack) : Option (Value × Stack) :=
  match s.depth with
  | 0 => none
  | d + 1 => (s.cells[d]?).map fun v => (v, { s with depth := d })

def put (s : Stack) (i : Nat) (v : Value) : Stack :=
  { s with cells := s.cells.setIfInBounds i v }

/-- Sets the depth, which brings popped cells back where it is raised. -/
def cutTo (s : Stack) (depth : Nat) : Stack := { s with depth }

/-- The last `n` values. -/
def top? (s : Stack) (n : Nat) : Option (List Value) :=
  if n ≤ s.depth then some ((s.cells.extract (s.depth - n) s.depth).toList) else none

end Stack

/-- A call under way. -/
structure Frame where
  closure : Ref
  ip : Nat
  base : Nat
  deriving Repr, DecidableEq, Inhabited

end Parlance
