/-
  Images: compiled scripts as bytes.
-/
import Parlance.Cbor
import Parlance.Verifier

namespace Parlance

/-- Why there is no image. -/
structure StoreError where
  function : String
  index : Nat
  typeName : String
  deriving Repr, DecidableEq

def StoreError.message (e : StoreError) : String :=
  e.function ++ ": constant " ++ toString e.index ++ " of type " ++ e.typeName ++
    " cannot be stored"

namespace Image

/-- The mark of the format. -/
def magic : String := "ZIAC"

def version : Int := 1

def extension : String := ".ziac"

def field (n : Nat) (value : Cbor) : Cbor × Cbor := (.unsigned n, value)

mutual

/-- The record of a function. Fields have numbers; a field that holds nothing is left out. -/
def functionRecord : Proto → Except StoreError Cbor
  | ⟨name, arity, upvalueCount, code, lines, constants⟩ =>
    match constantRecords (name.getD "script") 0 constants with
    | .error e => .error e
    | .ok records =>
      let title := match name with
        | some s => if s.isEmpty then [] else [field 1 (.text s)]
        | none => []
      .ok (.map (title ++ [field 2 (.ofInt arity), field 3 (.ofInt upvalueCount),
        field 4 (.bytes code.toList), field 5 (.array (lines.toList.map .ofInt)),
        field 6 (.array records)]))

def constantRecords (owner : String) (index : Nat) : List Constant → Except StoreError (List Cbor)
  | [] => .ok []
  | k :: ks =>
    match constantRecord owner index k with
    | .error e => .error e
    | .ok record =>
      match constantRecords owner (index + 1) ks with
      | .error e => .error e
      | .ok records => .ok (record :: records)

/-- The record of a constant: its kind, and its content unless that is empty, false or zero. -/
def constantRecord (owner : String) (index : Nat) : Constant → Except StoreError Cbor
  | .nul => .ok (.map [field 1 (.unsigned 0)])
  | .bool b => .ok (.map (field 1 (.unsigned 1) :: if b then [field 2 (.ofBool true)] else []))
  | .number x =>
    .ok (.map (field 1 (.unsigned 2) :: if x == 0 then [] else [field 3 (.float x)]))
  | .text s =>
    .ok (.map (field 1 (.unsigned 3) :: if s.isEmpty then [] else [field 4 (.text s)]))
  | .native name => .error ⟨owner, index, (Constant.native name).typeName⟩
  | .function f =>
    match functionRecord f with
    | .error e => .error e
    | .ok record => .ok (.map [field 1 (.unsigned 4), field 5 record])

end

/-- A script with the mark and the version of the format. -/
def encode (script : Proto) : Except StoreError (Array UInt8) :=
  match functionRecord script with
  | .error e => .error e
  | .ok record =>
    .ok (Cbor.encode (.map
      [field 1 (.text magic), field 2 (.ofInt version), field 3 record]))

end Image

end Parlance
