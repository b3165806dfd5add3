/-
  The functions that a script declares at its top level.
-/
import Parlance.Native.Doc
import Parlance.Text.Pad
import Parlance.Token.Lexer

namespace Parlance.Manual

def commentText? (line : String) : Option String :=
  match Text.trimBlankChars line.toList with
  | '/' :: '/' :: text => some (String.ofList (Text.trimBlankChars text))
  | _ => none

/-- The comment texts at the head of `above`, which lists lines upwards, put in reading order. -/
def commentsUpwards : (above : List String) → (found : List String) → List String
  | [], found => found
  | line :: above, found =>
    match commentText? line with
    | some text => commentsUpwards above (text :: found)
    | none => found

def leadingComment (lines : List String) (line : Int) : String :=
  Text.join " " (commentsUpwards (lines.take (line - 1).toNat).reverse [])

/-- The functions of a script so far. -/
structure Outline where
  depth : Nat := 0
  functions : List (String × Native.Doc) := []
  deriving Repr, Inhabited

def Outline.declare (o : Outline) (name : String) (doc : Native.Doc) : Outline :=
  { o with functions := (name, doc) :: o.functions.filter (·.1 != name) }

def Outline.brace (o : Outline) (t : Token) : Outline :=
  match t.kind with
  | .leftBrace => { o with depth := o.depth + 1 }
  | .rightBrace => { o with depth := o.depth - 1 }
  | _ => o

def Outline.describe (description : String) (parameters : List String) : Native.Doc :=
  { description, parameters := parameters.reverse.map (·, ""), returns := "" }

mutual

def Outline.scan (lines : List String) (o : Outline) : List Token → Outline
  | [] => o
  | [t] => o.brace t
  | [t, u] => (o.brace t).brace u
  | t :: name :: paren :: rest =>
    if t.kind == .fonction && o.depth == 0 && name.kind == .identifier &&
        paren.kind == .leftParen then
      Outline.scanParameters lines o name.text (leadingComment lines t.location.line) [] rest
    else Outline.scan lines (o.brace t) (name :: paren :: rest)

def Outline.scanParameters (lines : List String) (o : Outline) (name description : String)
    (parameters : List String) : List Token → Outline
  | [] => o.declare name (Outline.describe description parameters)
  | t :: rest =>
    match t.kind with
    | .rightParen | .eof =>
      Outline.scan lines (o.declare name (Outline.describe description parameters)) rest
    | .identifier =>
      Outline.scanParameters lines o name description (t.text :: parameters) rest
    | _ => Outline.scanParameters lines o name description parameters rest

end

/-- The declared names in order, each with its description. -/
def scriptFunctions (file source : String) : List (String × Native.Doc) :=
  let found := (Outline.scan (Text.lines source) {} (tokens file source)).functions
  found.mergeSort fun a b => !(b.1 < a.1)

end Parlance.Manual
