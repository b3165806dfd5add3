/-
  Host functions with typed parameters.
-/
import Parlance.Machine.Call

namespace Parlance.Native

/-- A type of the host. -/
inductive Kind where
  | number
  | whole
  | text
  | truth
  | any
  | machine
  | failure
  | other (name : String)
  deriving Repr, DecidableEq

def Kind.name : Kind → String
  | number => "float64"
  | whole => "int"
  | text => "string"
  | truth => "bool"
  | any => "zia.Value"
  | machine => "*zia.VM"
  | failure => "error"
  | other name => name

def Kind.isSupported : Kind → Bool
  | number | whole | text | truth | any => true
  | machine | failure | other _ => false

/-- The types of a host function. -/
structure Signature where
  parameters : List Kind := []
  results : List Kind := []
  variadic : Bool := false
  deriving Repr, DecidableEq

/-- Why it cannot be registered. -/
inductive SignatureError where
  | notFunction (type : String)
  | variadic
  | parameter (position : Nat) (type : Kind)
  | secondResult
  | tooManyResults
  | result (type : Kind)
  deriving Repr, DecidableEq

def SignatureError.message (name : String) (e : SignatureError) : String :=
  "native " ++ name ++ ": " ++ match e with
    | notFunction type => "not a function: " ++ type
    | variadic => "variadic functions are not supported"
    | parameter position type =>
      s!"parameter {position}: unsupported Go type " ++ type.name
    | secondResult => "second result must be an error"
    | tooManyResults => "too many results"
    | result type => "result: unsupported Go type " ++ type.name

namespace Signature

/-- The parameters that scripts fill: a function may take the machine in front. -/
def arguments (s : Signature) : List Kind :=
  match s.parameters with
  | .machine :: rest => rest
  | all => all

def firstUnsupported? : (position : Nat) → (ks : List Kind) → Option (Nat × Kind)
  | _, [] => none
  | position, k :: ks =>
    if k.isSupported then firstUnsupported? (position + 1) ks else some (position, k)

/-- A function returns nothing, a value, an error, or a value and an error. -/
def checkResults (s : Signature) : Except SignatureError Unit :=
  let value (k : Kind) : Except SignatureError Unit :=
    if k.isSupported then .ok () else .error (.result k)
  match s.results with
  | [] | [.failure] => .ok ()
  | [k] => value k
  | [k, .failure] => value k
  | [_, _] => .error .secondResult
  | _ => .error .tooManyResults

/-- The number of arguments. -/
def arity (s : Signature) : Except SignatureError Nat :=
  if s.variadic then .error .variadic
  else
    match firstUnsupported? 1 s.arguments with
    | some (position, k) => .error (.parameter position k)
    | none =>
      match s.checkResults with
      | .error e => .error e
      | .ok () => .ok s.arguments.length

end Signature

/-! ## Arguments and results -/

/-- A value as the host takes it. -/
inductive Argument where
  | number (x : Float)
  | whole (n : Int)
  | text (s : String)
  | truth (b : Bool)
  | any (v : Value)

/-- A value as the host gives it. -/
inductive Result where
  | nothing
  | number (x : Float)
  | whole (n : Int)
  | text (s : String)
  | truth (b : Bool)
  | any (v : Value)

/-- A value as a kind asks for it. -/
def convert (k : Kind) (v : Value) : Exec (Except String Argument) := do
  let expected (what : String) (given : String) : Except String Argument :=
    .error ("type incorrect : " ++ what ++ ", reçu " ++ given)
  match k, v with
  | .number, .number x => pure (.ok (.number x))
  | .number, _ => pure (expected "nombre attendu" (← Exec.typeName v))
  | .whole, .number x =>
    if Number.isWord x then pure (.ok (.whole (Number.toWord x)))
    else pure (expected "entier attendu" (← Exec.text v))
  | .whole, _ => pure (expected "entier attendu" (← Exec.text v))
  | .text, .object r =>
    match (← get).heap.chars? r with
    | some s => pure (.ok (.text s))
    | none => pure (expected "chaine attendue" (← Exec.typeName v))
  | .text, _ => pure (expected "chaine attendue" (← Exec.typeName v))
  | .truth, .bool b => pure (.ok (.truth b))
  | .truth, _ => pure (expected "booleen attendu" (← Exec.typeName v))
  | _, _ => pure (.ok (.any v))

def convertAll : (position : Nat) → List Kind → List Value → Exec (Except String (List Argument))
  | position, k :: ks, v :: vs => do
    match ← convert k v with
    | .error e => pure (.error (s!"argument {position} : " ++ e))
    | .ok a =>
      match ← convertAll (position + 1) ks vs with
      | .error e => pure (.error e)
      | .ok as => pure (.ok (a :: as))
  | _, [], _ => pure (.ok [])
  | _, _ :: _, [] => Exec.fault

def Result.toValue : Result → Exec Value
  | nothing => pure .nul
  | number x => pure (.number x)
  | whole n => pure (.number (Number.ofInt n))
  | text s => do pure (.object (← Exec.intern s).ref)
  | truth b => pure (.bool b)
  | any v => pure v

/-! ## Functions -/

/-- A function of the host. -/
structure HostFunction where
  signature : Signature
  run : List Argument → Exec (Except String Result)

/-- The native that calls a host function, after checking and converting its arguments. Its errors
begin with its name. -/
def HostFunction.routine (f : HostFunction) : Routine := fun name vs => do
  match ← convertAll 1 f.signature.arguments vs with
  | .error e => pure (.error (name ++ " : " ++ e))
  | .ok as =>
    match ← f.run as with
    | .error e => pure (.error (name ++ " : " ++ e))
    | .ok r => do pure (.ok (← r.toValue))

/-- What a host registers. -/
inductive Offer where
  | function (f : HostFunction)
  /-- A routine on values as they are, for any number of arguments. -/
  | routine (r : Routine)
  | other (type : String)

def Offer.arity : Offer → Except SignatureError Int
  | function f => f.signature.arity.map Int.ofNat
  | routine _ => .ok (-1)
  | other type => .error (.notFunction type)

def Offer.toRoutine : Offer → Routine
  | function f => f.routine
  | routine r => r
  | other _ => fun _ _ => Exec.fault

/-- Offers by name. The place in the row is the number that natives refer to. -/
abbrev Library := Array (String × Offer)

def Library.host (l : Library) : Host := l.map fun e => e.2.toRoutine

end Parlance.Native

namespace Parlance.Exec

/-- Binds a name to a native. -/
def defineNative (name : String) (arity : Int) (code : Nat) (S : Slots := .stack) : Exec Ref := do
  let key ← intern name
  S.push (.object key.ref)
  let r ← allocate (.native ⟨name, arity, some code⟩)
  S.push (.object r)
  modify fun m => { m with globals := (m.globals.set key (.object r)).2 }
  discard S.pop
  discard S.pop
  pure r

/-- Binds a name to what is offered. -/
def register (library : Native.Library) (name : String) (code : Nat) :
    Exec (Except Native.SignatureError Ref) := do
  let (_, offer) ← need library[code]?
  match offer.arity with
  | .error e => pure (.error e)
  | .ok arity => do pure (.ok (← defineNative name arity code))

end Parlance.Exec
