/-
  Loading images.
-/
import Parlance.Image
import Parlance.Image.Record

namespace Parlance.Image

/-! ## Records -/

mutual

/-- The record of a function. -/
structure FunctionRecord where
  name : String := ""
  arity : Int := 0
  upvalueCount : Int := 0
  code : Array UInt8 := #[]
  lines : Array Int := #[]
  constants : List ConstantRecord := []

/-- The record of a constant. Its kind says which field counts. -/
inductive ConstantRecord where
  | mk (kind : Nat) (truth : Bool) (number : Float) (text : String)
      (function : Option FunctionRecord)

end

/-- The record of an image. -/
structure FileRecord where
  magic : String := ""
  version : Int := 0
  main : Option FunctionRecord := none

def reference? {α : Type} (read : Cbor → Option α) (item : Cbor) : Option (Option α) :=
  if isNull item then some none else (read item).map some

mutual

def functionRecord? : (levels : Nat) → Cbor → Option FunctionRecord
  | 0, _ => none
  | levels + 1, item => do
    let fields ← entries? (← map? item)
    let name ← fieldAs? fields 1 text? ""
    let arity ← fieldAs? fields 2 word? 0
    let upvalueCount ← fieldAs? fields 3 word? 0
    let code ← fieldAs? fields 4 (fun i => (byteString? i).map some) #[]
    let lines ← fieldAs? fields 5 (fun i => do some (← readAll? word? 0 id (← list? i) #[])) #[]
    let constants ← fieldAs? fields 6
      (fun i => do some (← constantRecords? levels [] (← list? i))) []
    some { name, arity, upvalueCount, code, lines, constants }

def constantRecords? (levels : Nat) :
    (before : List ConstantRecord) → List Cbor → Option (List ConstantRecord)
  | before, [] => some before.reverse
  | before, item :: items =>
    match constantRecord? levels item with
    | some record => constantRecords? levels (record :: before) items
    | none => none

def constantRecord? (levels : Nat) (item : Cbor) : Option ConstantRecord := do
  let fields ← entries? (← map? item)
  let kind ← fieldAs? fields 1 byte? 0
  let truth ← fieldAs? fields 2 truth? false
  let number ← fieldAs? fields 3 float? 0
  let text ← fieldAs? fields 4 text? ""
  let function ← fieldAs? fields 5
    (fun i => (reference? (functionRecord? levels) i).map some) none
  some (.mk kind truth number text function)

end

/-- The records that some bytes hold. A function takes a level of nesting at least. -/
def fileRecord? (bs : List UInt8) : Option FileRecord := do
  let fields ← entries? (← map? (← Cbor.decode? bs))
  let magic ← fieldAs? fields 1 text? ""
  let version ← fieldAs? fields 2 word? 0
  let main ← fieldAs? fields 3
    (fun i => (reference? (functionRecord? (Cbor.maxDepth + 1)) i).map some) none
  some { magic, version, main }

/-! ## Scripts -/

/-- Why an image is refused. -/
inductive DecodeError where
  | notImage
  | unsupportedVersion (n : Int)
  | noMain
  | mainNotScript
  | tooDeep
  | tooManyConstants (n : Nat)
  | headerOutOfRange
  | missingBody (index : Nat)
  | unknownKind (index kind : Nat)
  | invalid (e : VerifyError)
  deriving Repr, DecidableEq

def maxNesting : Nat := 256

def maxParameters : Int := 255

def maxUpvalues : Int := 256

def DecodeError.message : DecodeError → String
  | notImage => "not a zia bytecode image"
  | unsupportedVersion n => s!"unsupported image version {n}, expected {version}"
  | noMain => "image has no main function"
  | mainNotScript => "image main function must be the top-level script"
  | tooDeep => s!"functions nested deeper than {maxNesting}"
  | tooManyConstants n => s!"{n} constants exceed the limit of {maxConstants}"
  | headerOutOfRange => "function header out of range"
  | missingBody index => s!"constant {index}: missing function body"
  | unknownKind index kind => s!"constant {index}: unknown kind {kind}"
  | invalid e => "invalid image: " ++ e.message

/-- What is wrong, and what of `α` was made before. -/
structure Fault (α : Type) where
  error : DecodeError
  begun : α

mutual

/-- The function of a record, inside `depth` others. A function is begun once its head is in
order. -/
def toProto (depth : Nat) : FunctionRecord → Except (Fault (Option Proto)) Proto
  | ⟨name, arity, upvalueCount, code, lines, constants⟩ =>
    if maxNesting < depth then .error ⟨.tooDeep, none⟩
    else if maxConstants < constants.length then .error ⟨.tooManyConstants constants.length, none⟩
    else if !(0 ≤ arity && arity ≤ maxParameters && 0 ≤ upvalueCount && upvalueCount ≤ maxUpvalues)
    then .error ⟨.headerOutOfRange, none⟩
    else
      let name := if name.isEmpty then none else some name
      match toConstants depth 0 constants with
      | .error fault =>
        .error ⟨fault.error, some { name, arity, upvalueCount, code, lines, constants := fault.begun }⟩
      | .ok constants => .ok { name, arity, upvalueCount, code, lines, constants }

def toConstants (depth index : Nat) :
    List ConstantRecord → Except (Fault (List Constant)) (List Constant)
  | [] => .ok []
  | k :: ks =>
    match toConstant depth index k with
    | .error fault => .error ⟨fault.error, fault.begun.toList⟩
    | .ok c =>
      match toConstants depth (index + 1) ks with
      | .error fault => .error ⟨fault.error, c :: fault.begun⟩
      | .ok cs => .ok (c :: cs)

def toConstant (depth index : Nat) : ConstantRecord → Except (Fault (Option Constant)) Constant
  | .mk kind truth number text function =>
    match kind with
    | 0 => .ok .nul
    | 1 => .ok (.bool truth)
    | 2 => .ok (.number number)
    | 3 => .ok (.text text)
    | 4 =>
      match function with
      | none => .error ⟨.missingBody index, none⟩
      | some f =>
        match toProto (depth + 1) f with
        | .error fault => .error ⟨fault.error, fault.begun.map .function⟩
        | .ok p => .ok (.function p)
    | kind => .error ⟨.unknownKind index kind, none⟩

end

/-- The script of an image, or what is wrong with it and how much of the script was made before. -/
def read (bytes : Array UInt8) : Except (Fault (Option Proto)) Proto :=
  match fileRecord? bytes.toList with
  | none => .error ⟨.notImage, none⟩
  | some file =>
    if file.magic != magic then .error ⟨.notImage, none⟩
    else if file.version != version then .error ⟨.unsupportedVersion file.version, none⟩
    else
      match file.main with
      | none => .error ⟨.noMain, none⟩
      | some main =>
        if main.name != "" || main.arity != 0 || main.upvalueCount != 0 then
          .error ⟨.mainNotScript, none⟩
        else
          match toProto 0 main with
          | .error fault => .error fault
          | .ok p =>
            match p.verify with
            | .error e => .error ⟨.invalid e, some p⟩
            | .ok () => .ok p

/-- The script of an image. -/
def decode (bytes : Array UInt8) : Except DecodeError Proto :=
  match read bytes with
  | .error fault => .error fault.error
  | .ok p => .ok p

end Parlance.Image
