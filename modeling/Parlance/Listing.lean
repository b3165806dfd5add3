/-
  Instructions in a chunk, and listings of them.
-/
import Parlance.Opcode
import Parlance.Proto
import Parlance.Text.Pad

namespace Parlance

/-- What listings ask of constants. -/
structure Pool (κ : Type) where
  display : κ → String
  isText : κ → Bool
  captures? : κ → Option Int

def Constant.pool : Pool Constant where
  display := Constant.display
  isText
    | .text _ => true
    | _ => false
  captures?
    | .function f => some f.upvalueCount
    | _ => none

/-- Code that ends too early. -/
inductive CodeError where
  | outside (offset : Int) (size : Nat)
  | unknownOpcode (byte : UInt8) (offset : Int)
  | truncated (op : Op) (offset : Int)
  | notFunction (op : Op) (offset : Int)
  deriving Repr, DecidableEq

def CodeError.message : CodeError → String
  | outside offset size => s!"offset {offset} outside code of length {size}"
  | unknownOpcode byte offset => "unknown opcode " ++ toString byte.toNat ++ s!" at offset {offset}"
  | truncated op offset => "truncated " ++ op.name ++ s!" at offset {offset}"
  | notFunction op offset => op.name ++ s!" at offset {offset} does not reference a function"

variable {κ : Type}

/-- A count of bytes or of values in the code of `c`: a word, which wraps around at its limits.
Where the code fills more than half of what words can count, wider ones are taken. -/
def Chunk.count (c : Chunk κ) (n : Int) : Int :=
  if n.natAbs ≤ c.code.size + 4611686018427387904 then n else Number.wrapWord n

def Chunk.behind (c : Chunk κ) (offset size : Int) : Int := c.count (offset + size)

/-- How many bytes the operands take. -/
def operandLength (pool : Pool κ) (c : Chunk κ) (op : Op) (offset : Nat) : Except CodeError Int :=
  match op with
  | .closure =>
    match c.code[offset + 1]? with
    | none => .error (.truncated op offset)
    | some index =>
      match c.constants[index.toNat]?.bind pool.captures? with
      | none => .error (.notFunction op offset)
      | some n => .ok (Number.wrapWord (2 + 2 * n))
  | _ => .ok (1 + op.width)

/-- The size in bytes of the instruction at `offset`, operands with it. It is positive where the
functions in the pool capture no more variables than a word can count in bytes, and no negative
number. -/
def instructionLength (pool : Pool κ) (c : Chunk κ) (offset : Int) : Except CodeError Int :=
  match (if 0 ≤ offset then c.code[offset.toNat]? else none) with
  | none => .error (.outside offset c.code.size)
  | some byte =>
    match Op.ofByte? byte with
    | none => .error (.unknownOpcode byte offset)
    | some op =>
      match operandLength pool c op offset.toNat with
      | .error e => .error e
      | .ok n =>
        if c.behind offset n ≤ c.code.size then .ok n else .error (.truncated op offset)

def Chunk.byte (c : Chunk κ) (offset : Nat) : Nat := (c.code[offset]?.map UInt8.toNat).getD 0

/-- Where the jump at `offset` goes: `distance` counts from the instruction behind it. -/
def Chunk.jumpTarget (c : Chunk κ) (op : Op) (offset : Nat) : Int :=
  let distance : Int := ((c.short? (offset + 1)).getD 0 : Nat)
  match op with
  | .loop => offset + 3 - distance
  | _ => offset + 3 + distance

/-! ## Listings -/

def offsetText (n : Nat) : String := Text.padLeft 4 '0' (toString n)

def columnText (n : Int) : String := Text.padLeft 4 ' ' (toString n)

def operandText (op : Op) (operand : Nat) : String :=
  Text.padRight 16 ' ' op.name ++ " " ++ columnText operand

def captureLines (c : Chunk κ) : (count offset : Nat) → String
  | 0, _ => ""
  | count + 1, offset =>
    let kind := if c.byte offset == 1 then "local" else "upvalue"
    offsetText offset ++ "    |                     " ++ kind ++ " " ++
      toString (c.byte (offset + 1)) ++ "\n" ++ captureLines c count (offset + 2)

/-- The variables that the closure at `offset` captures; `none` where the code ends before the last
of them. -/
def captureText? (pool : Pool κ) (c : Chunk κ) (offset : Nat) : Option String :=
  let count := ((c.constants[c.byte (offset + 1)]?).bind pool.captures?).getD 0
  if offset + 2 + 2 * count ≤ c.code.size then some (captureLines c count.toNat (offset + 2)) else none

/-- The instruction and its operands. -/
def instructionText? (pool : Pool κ) (c : Chunk κ) (op : Op) (offset : Nat) : Option String :=
  let operand := c.byte (offset + 1)
  let shown := ((c.constants[operand]?).map pool.display).getD "?"
  match op with
  | .constant | .getGlobal | .defineGlobal | .setGlobal =>
    some (operandText op operand ++ " '" ++ shown ++ "'\n")
  | .getLocal | .setLocal | .getUpvalue | .setUpvalue | .call | .print =>
    some (operandText op operand ++ "\n")
  | .jump | .jumpIfFalse | .loop =>
    some (operandText op offset ++ " -> " ++ toString (c.jumpTarget op offset) ++ "\n")
  | .closure =>
    (captureText? pool c offset).map fun captured =>
      operandText op operand ++ " " ++ shown ++ "\n" ++ captured
  | _ => some (op.name ++ "\n")

def lineMark? (c : Chunk κ) (offset : Nat) : Option String :=
  match c.lines[offset]? with
  | none => none
  | some line =>
    if 0 < offset && c.lines[offset - 1]? == some line then some "   | "
    else some (columnText line ++ " ")

/-- The listing of the instruction at `offset`, and the offset behind it; `none` where the code or
its lines end too early. What is no instruction takes one byte. -/
def listInstruction? (pool : Pool κ) (c : Chunk κ) (offset : Nat) : Option (String × Int) :=
  match lineMark? c offset, c.code[offset]? with
  | some mark, some byte =>
    let front := offsetText offset ++ " " ++ mark
    match instructionLength pool c offset, Op.ofByte? byte with
    | .ok size, some op =>
      (instructionText? pool c op offset).map fun text => (front ++ text, c.behind offset size)
    | .error e, _ => some (front ++ e.message ++ "\n", offset + 1)
    | .ok _, none => none
  | _, _ => none

/-- The listing from an offset on. -/
def listFrom? (pool : Pool κ) (c : Chunk κ) : (fuel offset : Nat) → (before : String) → Option String
  | 0, _, before => some before
  | fuel + 1, offset, before =>
    if offset < c.code.size then
      match listInstruction? pool c offset with
      | some (line, next) =>
        if 0 ≤ next then listFrom? pool c fuel next.toNat (before ++ line) else none
      | none => none
    else some before

/-- The listing of a chunk under a title. An instruction takes a byte at least. -/
def listChunk? (pool : Pool κ) (c : Chunk κ) (title : String) : Option String :=
  listFrom? pool c (c.code.size + 1) 0 ("== " ++ title ++ " ==\n")

mutual

/-- A function, with those in it. -/
def Proto.listing? : Proto → Option String
  | ⟨name, arity, upvalueCount, code, lines, constants⟩ =>
    let p : Proto := ⟨name, arity, upvalueCount, code, lines, constants⟩
    match listChunk? Constant.pool p.chunk p.displayName, Constant.listings? constants with
    | some own, some nested => some (own ++ nested)
    | _, _ => none

def Constant.listings? : List Constant → Option String
  | [] => some ""
  | k :: ks =>
    match k.listing?, Constant.listings? ks with
    | some here, some rest => some (here ++ rest)
    | _, _ => none

def Constant.listing? : Constant → Option String
  | .function f =>
    match f.listing? with
    | some s => some ("\n" ++ s)
    | none => none
  | _ => some ""

end

end Parlance
