/-
  Checking compiled code before it runs.
-/
import Parlance.Listing

namespace Parlance

/-- What is wrong with code. -/
inductive Flaw where
  | lineCount (lines code : Nat)
  | constantCount (count : Nat)
  | instruction (e : CodeError)
  | constantRange (index offset : Nat)
  | nameConstant (op : Op) (offset : Nat)
  | upvalueRange (index offset : Nat)
  | captureRange (op : Op) (offset index : Nat)
  | noReturn
  | jumpRange (op : Op) (offset : Nat) (target : Int)
  | leavesCode (offset : Int)
  | heights (height : Int) (offset : Nat) (other : Int)
  | underflow (op : Op) (offset pops : Nat) (height : Int)
  | localRange (op : Op) (offset slot : Nat) (height : Int)
  | captureSlot (op : Op) (offset slot : Nat) (height : Int)
  deriving Repr, DecidableEq

def Flaw.message : Flaw → String
  | lineCount lines code => s!"{lines} line entries for {code} code bytes"
  | constantCount count => s!"{count} constants exceed the limit of {maxConstants}"
  | instruction e => e.message
  | constantRange index offset => s!"constant {index} out of range at offset {offset}"
  | nameConstant op offset => op.name ++ s!" at offset {offset} needs a name constant"
  | upvalueRange index offset => s!"upvalue {index} out of range at offset {offset}"
  | captureRange op offset index =>
    op.name ++ s!" at offset {offset} captures upvalue {index} out of range"
  | noReturn => "code does not end with " ++ Op.return.name
  | jumpRange op offset target =>
    op.name ++ s!" at offset {offset} lands on {target}, outside any instruction"
  | leavesCode offset => s!"control leaves the code at offset {offset}"
  | heights height offset other =>
    s!"stack height {height} at offset {offset}, {other} on another path"
  | underflow op offset pops height =>
    op.name ++ s!" at offset {offset} pops {pops} values with {height} on the frame"
  | localRange op offset slot height =>
    op.name ++ s!" at offset {offset} reads slot {slot} of {height}"
  | captureSlot op offset slot height =>
    op.name ++ s!" at offset {offset} captures slot {slot} of {height}"

/-- A flaw, and the function it is in. -/
structure VerifyError where
  function : String
  flaw : Flaw
  deriving Repr, DecidableEq

def VerifyError.message (e : VerifyError) : String := e.function ++ ": " ++ e.flaw.message

/-! ## Instructions -/

/-- The capture pairs of the closure at `offset`, which ends before `behind`: how each variable is
found, and where. -/
def Chunk.captures {κ : Type} (c : Chunk κ) (offset : Nat) (behind : Int) : List (Nat × Nat) :=
  (List.range ((behind - offset - 1).toNat / 2)).map fun i =>
    (c.byte (offset + 2 + 2 * i), c.byte (offset + 3 + 2 * i))

/-- Whether the operands of the instruction from `offset` to `behind` are in range, heights
apart. -/
def checkOperands (c : Chunk Constant) (upvalueCount : Int) (op : Op) (offset : Nat) (behind : Int) :
    Except Flaw Unit :=
  let operand := c.byte (offset + 1)
  match op with
  | .constant | .getGlobal | .defineGlobal | .setGlobal =>
    match c.constants[operand]? with
    | none => .error (.constantRange operand offset)
    | some k =>
      if op == .constant || Constant.pool.isText k then .ok ()
      else .error (.nameConstant op offset)
  | .getUpvalue | .setUpvalue =>
    if (operand : Int) < upvalueCount then .ok () else .error (.upvalueRange operand offset)
  | .closure =>
    match (c.captures offset behind).find? fun (kind, index) =>
        kind == 0 && upvalueCount ≤ (index : Int) with
    | some (_, index) => .error (.captureRange op offset index)
    | none => .ok ()
  | _ => .ok ()

/-- The instructions from `offset` on, behind those found before. Code that leads back into itself
has no last instruction. -/
def decodeFrom (c : Chunk Constant) (upvalueCount : Int) :
    (fuel : Nat) → (offset : Int) → (before : Array (Nat × Op)) → Except Flaw (Array (Nat × Op))
  | 0, _, _ => .error .noReturn
  | fuel + 1, offset, before =>
    if offset < c.code.size then
      match instructionLength Constant.pool c offset, (c.code[offset.toNat]?).bind Op.ofByte? with
      | .error e, _ => .error (.instruction e)
      | .ok size, some op =>
        match checkOperands c upvalueCount op offset.toNat (c.behind offset size) with
        | .error e => .error e
        | .ok () =>
          decodeFrom c upvalueCount fuel (c.behind offset size) (before.push (offset.toNat, op))
      | .ok _, none => .error .noReturn
    else .ok before

/-- The operand is a distance. -/
def isJump (op : Op) : Bool := op == .jump || op == .jumpIfFalse || op == .loop

/-- The instructions of the code with their offsets. Every byte belongs to one of them, the last is
a return, and every jump lands on the start of one. -/
def decode (c : Chunk Constant) (upvalueCount : Int) : Except Flaw (Array (Nat × Op)) :=
  match decodeFrom c upvalueCount (c.code.size + 1) 0 #[] with
  | .error e => .error e
  | .ok instructions =>
    match instructions.back? with
    | some (_, .return) =>
      let starts := instructions.foldl (fun a i => a.setIfInBounds i.1 true)
        (Array.replicate c.code.size false)
      let stray := instructions.find? fun (offset, op) =>
        isJump op &&
          let target := c.jumpTarget op offset
          !(0 ≤ target && starts[target.toNat]? == some true)
      match stray with
      | some (offset, op) => .error (.jumpRange op offset (c.jumpTarget op offset))
      | none => .ok instructions
    | _ => .error .noReturn

/-! ## Heights of the stack -/

/-- What is popped, and what is pushed. -/
def stackEffect (op : Op) (operand : Nat) : Nat × Nat :=
  match op with
  | .constant | .pushNul | .pushTrue | .pushFalse | .getLocal | .getGlobal | .getUpvalue
  | .closure => (0, 1)
  | .pop | .defineGlobal | .closeUpvalue | .return => (1, 0)
  | .setLocal | .setGlobal | .setUpvalue | .not | .negate | .jumpIfFalse => (1, 1)
  | .equal | .notEqual | .greater | .greaterEqual | .less | .lessEqual | .add | .subtract
  | .multiply | .divide | .modulo => (2, 1)
  | .print => (operand, 0)
  | .call => (operand + 1, 1)
  | .jump | .loop => (0, 0)

/-- Heights found so far, and the offsets from where the search goes on. -/
structure Heights where
  known : Array (Option Int)
  work : List Nat := []

/-- Notes a height, or compares it. -/
def Heights.reach (h : Heights) (offset height : Int) : Except Flaw Heights :=
  match (if 0 ≤ offset then h.known[offset.toNat]? else none) with
  | none => .error (.leavesCode offset)
  | some none =>
    .ok ⟨h.known.setIfInBounds offset.toNat (some height), offset.toNat :: h.work⟩
  | some (some other) =>
    if other == height then .ok h else .error (.heights height offset.toNat other)

/-- The slots that the instruction names lie below the height. A function may capture its own
slot, which the closure itself fills. -/
def checkSlots (c : Chunk Constant) (op : Op) (offset : Nat) (behind height after : Int) :
    Except Flaw Unit :=
  match op with
  | .getLocal | .setLocal =>
    let slot := c.byte (offset + 1)
    if (slot : Int) < height then .ok () else .error (.localRange op offset slot height)
  | .closure =>
    match (c.captures offset behind).find? fun (kind, slot) => kind == 1 && after ≤ (slot : Int) with
    | some (_, slot) => .error (.captureSlot op offset slot after)
    | none => .ok ()
  | _ => .ok ()

/-- Where control goes from the instruction between `offset` and `behind`, in the order in which the
search notes it. -/
def successors (c : Chunk Constant) (op : Op) (offset : Nat) (behind : Int) : List Int :=
  match op with
  | .return => []
  | .jump | .loop => [c.jumpTarget op offset]
  | .jumpIfFalse => [c.jumpTarget op offset, behind]
  | _ => [behind]

/-- Goes on from an instruction. -/
def Heights.visit (c : Chunk Constant) (h : Heights) (offset : Nat) : Except Flaw Heights := do
  let height := ((h.known[offset]?).getD none).getD 0
  match (c.code[offset]?).bind Op.ofByte? with
  | none => .ok h
  | some op =>
    let behind := match instructionLength Constant.pool c offset with
      | .ok n => c.behind offset n
      | .error _ => offset
    let (pops, pushes) := stackEffect op (c.byte (offset + 1))
    if c.count (height - pops) < 1 then
      .error (.underflow op offset pops (c.count (height - 1)))
    else
      let after := c.count (height - pops + pushes)
      checkSlots c op offset behind height after
      (successors c op offset behind).foldlM (fun h next => h.reach next after) h

/-- Follows the noted offsets, the latest first. Each offset is noted once. -/
def Heights.run (c : Chunk Constant) : (fuel : Nat) → Heights → Except Flaw Heights
  | 0, h => .ok h
  | fuel + 1, h =>
    match h.work with
    | [] => .ok h
    | offset :: rest =>
      match Heights.visit c { h with work := rest } offset with
      | .error e => .error e
      | .ok h => Heights.run c fuel h

/-- Every path through the code finds one height at each instruction and stays above the base. -/
def checkHeights (c : Chunk Constant) (arity : Int) : Except Flaw Heights :=
  match Heights.reach ⟨Array.replicate c.code.size none, []⟩ 0 (c.count (1 + arity)) with
  | .error e => .error e
  | .ok h => h.run c (c.code.size + 1)

/-! ## Functions -/

/-- The checks of one function. -/
def Proto.check (p : Proto) : Except Flaw Unit :=
  let c := p.chunk
  if c.lines.size != c.code.size then .error (.lineCount c.lines.size c.code.size)
  else if maxConstants < c.constants.size then .error (.constantCount c.constants.size)
  else
    match decode c p.upvalueCount with
    | .error e => .error e
    | .ok _ =>
      match checkHeights c p.arity with
      | .error e => .error e
      | .ok _ => .ok ()

mutual

/-- Both, for a function and the functions among its constants. -/
def Proto.verify : Proto → Except VerifyError Unit
  | ⟨name, arity, upvalueCount, code, lines, constants⟩ =>
    let p : Proto := ⟨name, arity, upvalueCount, code, lines, constants⟩
    match p.check with
    | .error e => .error ⟨p.displayName, e⟩
    | .ok () => Constant.verifyAll constants

def Constant.verifyAll : List Constant → Except VerifyError Unit
  | [] => .ok ()
  | k :: ks =>
    match k.verify with
    | .error e => .error e
    | .ok () => Constant.verifyAll ks

def Constant.verify : Constant → Except VerifyError Unit
  | .function f => f.verify
  | _ => .ok ()

end

end Parlance
