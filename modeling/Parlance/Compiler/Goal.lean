/-
  What there is to parse, and how tightly operators bind.
-/
import Parlance.Compiler.State

namespace Parlance

/-- How tightly operators bind. -/
inductive Precedence where
  | none | assignment | conditional | or | and | equality | comparison | term | factor | unary | call
  | primary
  deriving Repr, DecidableEq, Inhabited

namespace Precedence

def rank : Precedence → Nat
  | none => 0 | assignment => 1 | conditional => 2 | or => 3 | and => 4 | equality => 5
  | comparison => 6 | term => 7 | factor => 8 | unary => 9 | call => 10 | primary => 11

def next : Precedence → Precedence
  | none => assignment | assignment => conditional | conditional => or | or => and | and => equality
  | equality => comparison | comparison => term | term => factor | factor => unary | unary => call
  | call => primary | primary => primary

end Precedence

/-- The clauses of a choice so far. -/
structure Clauses where
  slot : UInt8
  /-- The jump of the latest case past its body, if it is not aimed yet. -/
  skip? : Option Nat := none
  fall? : Option Nat := none
  sawDefault : Bool := false

/-- The places where the parser calls itself: sentences of the grammar, and the rounds of the loops
that read rows of them. -/
inductive Goal where
  | program
  | declaration
  | statement
  | block
  | expression (p : Precedence)
  | operators (p : Precedence) (canAssign : Bool)
  | printed (count : Nat)
  | arguments (count : Nat)
  | parameters
  | clauses (c : Clauses)
  | caseBody

/-- How the parser goes on. -/
abbrev Recur := Goal → Comp Unit

end Parlance
