/-
  The heap: every object, behind a registry of slots.
-/
import Parlance.Heap.Object
import Parlance.Table
import Parlance.Listing

namespace Parlance

/-- When to collect. -/
structure HeapSettings where
  stress : Bool := false
  log : Bool := false
  growth : Float := 2
  threshold : Int := 1048576
  deriving Repr, Inhabited

/-- The heap. An object that is swept leaves its slot, and what is left of it keeps its number, so
that a use of it can be told. -/
structure Heap where
  settings : HeapSettings
  /-- Every object made, by its serial number. -/
  cells : Array Cell := #[]
  /-- The registry: the live object of each slot. -/
  slots : Array (Option Ref) := #[]
  /-- How often each slot was emptied. -/
  generations : Array UInt32 := #[]
  /-- The empty slots, the one emptied last in front. -/
  free : List Nat := []
  strings : Table Unit := {}
  bytes : Int := 0
  nextCollection : Int
  collections : Nat := 0
  journal : Array String := #[]
  deriving Inhabited

/-- A slot and the generation it was in; `Heap.resolve?` answers as long as the object lives. -/
structure Handle where
  index : Int
  generation : UInt32
  deriving Repr, DecidableEq

namespace Heap

def new (settings : HeapSettings) : Heap := { settings, nextCollection := settings.threshold }

def note (h : Heap) (message : String) : Heap := { h with journal := h.journal.push message }

/-- Notes a message, if asked to. -/
def trace (h : Heap) (message : Unit → String) : Heap :=
  if h.settings.log then h.note (message ()) else h

/-- The object of a number. -/
def object? (h : Heap) (r : Ref) : Option Object := (h.cells[r.serial]?).map (·.object)

/-- Changes an object in place. -/
def setObject (h : Heap) (r : Ref) (o : Object) : Heap :=
  { h with cells := h.cells.modify r.serial fun c => { c with object := o } }

def function? (h : Heap) (r : Ref) : Option Function :=
  match h.object? r with
  | some (.function f) => some f
  | _ => none

def symbol? (h : Heap) (r : Ref) : Option Symbol :=
  match h.object? r with
  | some (.text chars hash) => some ⟨r, chars, hash⟩
  | _ => none

/-- How many objects there are. -/
def liveObjects (h : Heap) : Nat := h.slots.size - h.free.length

/-- A handle to an object. -/
def handle? (h : Heap) (r : Ref) : Option Handle :=
  (h.cells[r.serial]?).bind fun c =>
    (h.generations[c.slot]?).map fun g => ⟨c.slot, g⟩

/-- The object behind a handle, as long as it has not been swept. -/
def resolve? (h : Heap) (handle : Handle) : Option Ref :=
  if handle.index < 0 then none
  else
    match h.slots[handle.index.toNat]?, h.generations[handle.index.toNat]? with
    | some r, some g => if g == handle.generation then r else none
    | _, _ => none

/-! ## Values as scripts see them -/

def chars? (h : Heap) (r : Ref) : Option String :=
  match h.object? r with
  | some (.text chars _) => some chars
  | _ => none

def nameOf (h : Heap) (f : Function) : Option String := f.name.bind h.chars?

def displayName (h : Heap) (f : Function) : String := (h.nameOf f).getD "script"

def functionText (h : Heap) (f : Function) : String :=
  match h.nameOf f with
  | some name => "<fn " ++ name ++ ">"
  | none => "<script>"

/-- The text of an object. A closure that was swept has none. -/
def objectText? (h : Heap) : Object → Option String
  | .text chars _ => some chars
  | .function f => some (h.functionText f)
  | .closure f _ => (f.bind h.function?).map h.functionText
  | .upvalue _ => some "upvalue"
  | .native _ => some "<fn natif>"

/-- A value as scripts print it. -/
def text? (h : Heap) : Value → Option String
  | .bool true => some "vrai"
  | .bool false => some "faux"
  | .nul => some "nul"
  | .number x => some (Number.display x)
  | .object r => (h.object? r).bind h.objectText?

/-- The type of a value. -/
def typeName? (h : Heap) : Value → Option String
  | .bool _ => some "booleen"
  | .nul => some "nul"
  | .number _ => some "nombre"
  | .object r => (h.object? r).map fun
    | .text .. => "chaine"
    | .function _ | .closure .. | .native _ => "fonction"
    | .upvalue _ => "objet"

/-- Values as listings show them. -/
def pool (h : Heap) : Pool Value where
  display v := (h.text? v).getD ""
  isText
    | .object r => (h.chars? r).isSome
    | _ => false
  captures?
    | .object r => (h.function? r).map (·.upvalueCount)
    | _ => none

end Heap

end Parlance
