/-
  Places as an editor counts them.
-/
import Parlance.Location
import Parlance.Number.Binary
import Parlance.Text.Pad
import Parlance.Token.Lexer

namespace Parlance.Editor

/-- A stretch of one line. Lines and characters count from zero, in 32 bits. -/
structure Range where
  line : UInt32
  start : UInt32
  stop : UInt32
  deriving Repr, DecidableEq, Inhabited

/-- What `n`, counted from one, is when counted from zero; numbers are words of 64 bits. -/
def fromZero (n : Int) : Int := max (Number.wrapWord (n - 1)) 0

def Range.ofLocation (l : Location) : Range :=
  let line := fromZero l.line
  let start := fromZero l.column
  let stop := match l.lastColumn with
    | some last => if start < last then last else start + 1
    | none => start + 1
  ⟨.ofInt line, .ofInt start, .ofInt stop⟩

/-- The word that touches character `character` of a line; behind the line, the word at its end. -/
def wordIn (line : List Char) (character : Nat) : List Char :=
  ((line.take character).reverse.takeWhile Cursor.isWordChar).reverse ++
    (line.drop character).takeWhile Cursor.isWordChar

def wordAt (text : String) (line character : Nat) : String :=
  match (Text.lines text)[line]? with
  | some l => String.ofList (wordIn l.toList character)
  | none => ""

end Parlance.Editor
