/-
  Places in a source text.
-/

namespace Parlance

/-- A file, a line, a first column and, for a span on one line, a last column. Lines and columns
count from one, columns in characters. -/
structure Location where
  file : String := ""
  line : Int := 0
  column : Int := 0
  lastColumn : Option Int := none
  deriving Repr, DecidableEq, Inhabited

def Location.text (l : Location) : String :=
  let start := toString l.line ++ ":" ++ toString l.column
  match l.lastColumn with
  | some last => start ++ "-" ++ toString last
  | none => start

def Location.fileText (l : Location) : String := l.file ++ ":" ++ l.text

/-- A place in a text. -/
structure Position where
  line : Nat := 1
  column : Nat := 1
  deriving Repr, DecidableEq, Inhabited

namespace Position

/-- The place behind a character. -/
def next (p : Position) (c : Char) : Position :=
  if c == '\n' then ⟨p.line + 1, 1⟩ else ⟨p.line, p.column + 1⟩

def after (p : Position) (cs : List Char) : Position := cs.foldl next p

def location (p : Position) (file : String) : Location := ⟨file, p.line, p.column, none⟩

def span (start stop : Position) (file : String) : Location :=
  let last := if stop.line == start.line && start.column < stop.column then stop.column - 1
    else start.column
  ⟨file, start.line, start.column, some last⟩

end Position

end Parlance
