/-
  Compiled functions.
-/
import Parlance.Chunk
import Parlance.Number.Text

namespace Parlance

mutual

/-- A constant as the compiler has it. -/
inductive Constant where
  | nul
  | bool (b : Bool)
  | number (x : Float)
  | text (s : String)
  | native (name : String)
  | function (f : Proto)

/-- A function as the compiler leaves it: name, header, code, lines and constants. The functions
declared inside it are among its constants, so a script is one tree. -/
structure Proto where
  name : Option String := none
  arity : Int := 0
  upvalueCount : Int := 0
  code : Array UInt8 := #[]
  lines : Array Int := #[]
  constants : List Constant := []

end

instance : Inhabited Proto := ⟨{}⟩
instance : Inhabited Constant := ⟨.nul⟩

namespace Proto

def displayName (p : Proto) : String := p.name.getD "script"

def text (p : Proto) : String :=
  match p.name with
  | some name => "<fn " ++ name ++ ">"
  | none => "<script>"

/-- The code with its constants. -/
def chunk (p : Proto) : Chunk Constant := ⟨p.code, p.lines, p.constants.toArray⟩

end Proto

namespace Constant

/-- A constant in a listing. -/
def display : Constant → String
  | nul => "nul"
  | bool true => "vrai"
  | bool false => "faux"
  | number x => Number.display x
  | text s => s
  | native _ => "<fn natif>"
  | function f => f.text

def isText (name : String) : Constant → Bool
  | text s => s == name
  | _ => false

def typeName : Constant → String
  | nul => "nul"
  | bool _ => "booleen"
  | number _ => "nombre"
  | text _ => "chaine"
  | native _ | function _ => "fonction"

end Constant

/-- One step by which the heap follows a compilation. -/
inductive Build where
  | enter (name : Option String)
  | constant (c : Constant)
  /-- The code names a global. Its name was taken for the constant `index` of the function begun
  last, which is the first with this text, or a new one. -/
  | name (text : String) (index : Nat)
  /-- The function begun last is complete and joins the pool of the one around it. `clean` says
  that nothing was wrong with the source up to here. -/
  | leave (f : Proto) (clean : Bool)

end Parlance
