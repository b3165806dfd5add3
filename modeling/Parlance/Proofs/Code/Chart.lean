/-
  Charts of code: what every instruction finds on its frame.
-/
import Parlance.Verifier

namespace Parlance

/-! ## Windows -/

/-- What control finds on the frame at an instruction: the number of values, and the slots that open
variables may stand for. -/
structure Window where
  height : Nat
  opened : Nat → Prop

namespace Window

/-- Control with `v` on the frame may go where `w` is expected. -/
protected def le (v w : Window) : Prop := v.height = w.height ∧ ∀ i, v.opened i → w.opened i

instance : LE Window := ⟨Window.le⟩

theorem le_refl (w : Window) : w ≤ w := ⟨rfl, fun _ h => h⟩

theorem le_trans {u v w : Window} (h : u ≤ v) (h' : v ≤ w) : u ≤ w :=
  ⟨h.1.trans h'.1, fun i hi => h'.2 i (h.2 i hi)⟩

/-- A window of which no slot is captured. -/
def bare (height : Nat) : Window := ⟨height, fun _ => False⟩

end Window

/-- As many captured variables as a closure can hold. -/
def Proto.Sane (q : Proto) : Prop := 0 ≤ q.upvalueCount ∧ q.upvalueCount < 1099511627776

/-- Whether control can go on to the instruction behind. -/
def Op.falls : Op → Bool
  | .return | .jump | .loop => false
  | _ => true

namespace Chunk

variable {o : Nat}

variable (c : Chunk Constant)

/-! ## Instructions -/

/-- The operation at an offset. -/
def op? (o : Nat) : Option Op := (c.code[o]?).bind Op.ofByte?

/-- The function that the closure at `o` wraps. -/
def callee? (o : Nat) : Option Proto :=
  match c.constants[c.byte (o + 1)]? with
  | some (.function q) => some q
  | _ => none

variable {c} in
theorem constants_of_callee? {q : Proto} (h : c.callee? o = some q) :
    c.constants[c.byte (o + 1)]? = some (.function q) := by
  unfold callee? at h; split at h <;> simp_all

/-- The number of variables that the closure at `o` captures. -/
def captureCount (o : Nat) : Nat :=
  match c.callee? o with
  | some q => q.upvalueCount.toNat
  | none => 0

/-- The number of bytes of the instruction at `o`. -/
def length (op : Op) (o : Nat) : Nat :=
  match op with
  | .closure => 2 + 2 * c.captureCount o
  | _ => 1 + op.width

/-- The number of values that the instruction at `o` takes off the stack. -/
def pops (op : Op) (o : Nat) : Nat := (stackEffect op (c.byte (o + 1))).1

def pushes (op : Op) (o : Nat) : Nat := (stackEffect op (c.byte (o + 1))).2

/-- The closure at `o` captures slot `i` of the frame. -/
def CapturesSlot (o i : Nat) : Prop :=
  ∃ j < c.captureCount o, c.byte (o + 2 + 2 * j) = 1 ∧ c.byte (o + 3 + 2 * j) = i

/-- What the instruction at `o` leaves on the frame. -/
def after (op : Op) (o : Nat) (w : Window) : Window where
  height := w.height - c.pops op o + c.pushes op o
  opened i := i < w.height - c.pops op o ∧ w.opened i ∨ op = .closure ∧ c.CapturesSlot o i

/-- Where control goes from the instruction at `o`: where it jumps to, and the instruction behind
it. -/
def targets (op : Op) (o : Nat) : List Int :=
  (if isJump op then [c.jumpTarget op o] else []) ++
    if op.falls then [((o + c.length op o : Nat) : Int)] else []

/-- The operand of the instruction at `o` is in range, with so many values on the frame. -/
def OperandFits (upvalueCount : Int) (op : Op) (o height : Nat) : Prop :=
  match op with
  | .constant => ∃ k, c.constants[c.byte (o + 1)]? = some k
  | .getGlobal | .defineGlobal | .setGlobal => ∃ s, c.constants[c.byte (o + 1)]? = some (.text s)
  | .getUpvalue | .setUpvalue => (c.byte (o + 1) : Int) < upvalueCount
  | .getLocal | .setLocal => c.byte (o + 1) < height
  | .closure => ∃ q, c.callee? o = some q
  | _ => True

/-- The variables that the closure at `o` captures are there. It may capture its own slot. -/
def CapturesFit (upvalueCount : Int) (o height : Nat) : Prop :=
  ∀ j < c.captureCount o,
    (c.byte (o + 2 + 2 * j) = 0 → (c.byte (o + 3 + 2 * j) : Int) < upvalueCount) ∧
    (c.byte (o + 2 + 2 * j) = 1 → c.byte (o + 3 + 2 * j) ≤ height)

/-- The instruction at `o` can be carried out: a closure wraps a function with a sane header. -/
def Sane (op : Op) (o : Nat) : Prop :=
  op = .closure → ∀ q, c.callee? o = some q → q.Sane

/-- The instruction at `o` can be met with the window `w`. -/
structure Fits (upvalueCount : Int) (op : Op) (o : Nat) (w : Window) : Prop where
  op_eq : c.op? o = some op
  room : c.pops op o < w.height
  operand : c.OperandFits upvalueCount op o w.height
  inside : c.Sane op o → o + c.length op o ≤ c.code.size
  captures : c.Sane op o → op = .closure → c.CapturesFit upvalueCount o w.height

/-- The instruction at `o` takes no slot away that an open variable stands for, unless it closes the
variable, and says of each variable that it captures where that is. -/
structure Tidy (op : Op) (o : Nat) (w : Window) : Prop where
  sane : c.Sane op o
  closed : op ≠ .closeUpvalue → ∀ i, w.height ≤ i + c.pops op o → i < w.height → ¬ w.opened i
  kinds : op = .closure → ∀ j < c.captureCount o,
    c.byte (o + 2 + 2 * j) = 0 ∨ c.byte (o + 2 + 2 * j) = 1

variable {c}

theorem op?_eq_some {op : Op} (h : c.op? o = some op) :
    o < c.code.size ∧ c.code[o]? = some op.toByte := by
  obtain ⟨b, hb, hop⟩ := Option.bind_eq_some_iff.1 h
  obtain ⟨hlt, -⟩ := Array.getElem?_eq_some_iff.1 hb
  refine ⟨hlt, hb.trans (congrArg some ?_)⟩
  exact Op.eq_toByte_of_ofByte? hop

theorem op?_of_toByte {op : Op} (h : c.code[o]? = some op.toByte) : c.op? o = some op := by
  simp [op?, h, Op.ofByte?_toByte]

theorem length_pos (op : Op) (o : Nat) : 0 < c.length op o := by
  unfold length; split <;> omega

end Chunk

/-! ## Charts -/

/-- The windows of the instructions of a function, by their offsets. -/
abbrev Chart := Nat → Option Window

namespace Chart

/-- Control may go to `o` with the window `v`. -/
def Lands (t : Chart) (o : Nat) (v : Window) : Prop := ∃ w, t o = some w ∧ v ≤ w

end Chart

/-- Control begins with the callee and its arguments on the frame, and from every charted
instruction goes on to charted ones. -/
structure Proto.Charted (p : Proto) (t : Chart) : Prop where
  entry : t.Lands 0 (.bare (1 + p.arity).toNat)
  fits : ∀ {o w}, t o = some w → ∃ op, p.chunk.Fits p.upvalueCount op o w
  flows : ∀ {o w op}, t o = some w → p.chunk.op? o = some op → p.chunk.Sane op o →
    ∀ d ∈ p.chunk.targets op o, ∃ n : Nat, d = n ∧ t.Lands n (p.chunk.after op o w)

end Parlance
