/-
  Instructions.
-/

namespace Parlance

/-- The operations of the machine; an instruction is the byte of its operation and its operands. -/
inductive Op where
  | constant | pushNul | pushTrue | pushFalse | pop | getLocal | setLocal | getGlobal
  | defineGlobal | setGlobal | getUpvalue | setUpvalue | equal | notEqual | greater
  | greaterEqual | less | lessEqual | add | subtract | multiply | divide | modulo | not | negate
  | print | jump | jumpIfFalse | loop | call | closure | closeUpvalue | return
  deriving Repr, DecidableEq, Inhabited

namespace Op

/-- Every operation with its name; the place in the row is its byte. -/
def all : Array (Op × String) := #[
  (constant, "OP_CONSTANT"), (pushNul, "OP_NULL"), (pushTrue, "OP_TRUE"),
  (pushFalse, "OP_FALSE"), (pop, "OP_POP"), (getLocal, "OP_GET_LOCAL"),
  (setLocal, "OP_SET_LOCAL"), (getGlobal, "OP_GET_GLOBAL"),
  (defineGlobal, "OP_DEFINE_GLOBAL"), (setGlobal, "OP_SET_GLOBAL"),
  (getUpvalue, "OP_GET_UPVALUE"), (setUpvalue, "OP_SET_UPVALUE"), (equal, "OP_EQUAL"),
  (notEqual, "OP_NOT_EQUAL"), (greater, "OP_GREATER"), (greaterEqual, "OP_GREATER_EQUAL"),
  (less, "OP_LESS"), (lessEqual, "OP_LESS_EQUAL"), (add, "OP_ADD"), (subtract, "OP_SUBTRACT"),
  (multiply, "OP_MULTIPLY"), (divide, "OP_DIVIDE"), (modulo, "OP_MODULO"), (not, "OP_NOT"),
  (negate, "OP_NEGATE"), (print, "OP_PRINT"), (jump, "OP_JUMP"),
  (jumpIfFalse, "OP_JUMP_IF_FALSE"), (loop, "OP_LOOP"), (call, "OP_CALL"),
  (closure, "OP_CLOSURE"), (closeUpvalue, "OP_CLOSE_UPVALUE"), (.return, "OP_RETURN")]

/-- The byte of an operation. -/
def toByte : Op → UInt8
  | constant => 0 | pushNul => 1 | pushTrue => 2 | pushFalse => 3 | pop => 4 | getLocal => 5
  | setLocal => 6 | getGlobal => 7 | defineGlobal => 8 | setGlobal => 9 | getUpvalue => 10
  | setUpvalue => 11 | equal => 12 | notEqual => 13 | greater => 14 | greaterEqual => 15
  | less => 16 | lessEqual => 17 | add => 18 | subtract => 19 | multiply => 20 | divide => 21
  | modulo => 22 | not => 23 | negate => 24 | print => 25 | jump => 26 | jumpIfFalse => 27
  | loop => 28 | call => 29 | closure => 30 | closeUpvalue => 31 | .return => 32

/-- The operation of a byte. -/
def ofByte? (b : UInt8) : Option Op := all[b.toNat]?.map Prod.fst

def name (op : Op) : String := (all[op.toByte.toNat]?.map Prod.snd).getD ""

def nameOfByte (b : UInt8) : String :=
  match ofByte? b with
  | some op => op.name
  | none => "OP_UNKNOWN_" ++ toString b.toNat

/-- How many operand bytes follow. A closure has two more for each captured variable. -/
def width : Op → Nat
  | constant | getLocal | setLocal | getGlobal | defineGlobal | setGlobal | getUpvalue
  | setUpvalue | print | call | closure => 1
  | jump | jumpIfFalse | loop => 2
  | _ => 0

theorem ofByte?_toByte (op : Op) : ofByte? op.toByte = some op := by cases op <;> rfl

theorem eq_toByte_of_ofByte? {b : UInt8} {op : Op} (h : ofByte? b = some op) : b = op.toByte := by
  have known : ∀ n : Fin 33, (ofByte? (UInt8.ofNat n)).all (·.toByte == UInt8.ofNat n) := by decide
  obtain ⟨e, he, -⟩ := Option.map_eq_some_iff.1 h
  obtain ⟨hlt, -⟩ := Array.getElem?_eq_some_iff.1 he
  have hb := known ⟨b.toNat, hlt⟩
  rw [UInt8.ofNat_toNat, h] at hb
  exact (eq_of_beq hb).symm

end Op

end Parlance
