/-
  What decoding has found out about code.
-/
import Parlance.Proofs.Code.Chart

namespace Parlance

namespace Number

theorem wrapWord_of_lt {n : Int} (h : -9223372036854775808 ≤ n) (h' : n < 9223372036854775808) :
    wrapWord n = n := by
  unfold wrapWord Int.bmod
  simp only []
  split <;> omega

end Number

/-! ## Instructions -/

namespace Chunk

variable {c : Chunk Constant} {upvalueCount : Int} {o : Nat} {op : Op} {behind : Int}

theorem count_of_le {n : Nat} (h : n ≤ c.code.size + 4611686018427387904) : c.count n = n := by
  simp [count, h]

theorem byte_lt (o : Nat) : c.byte o < 256 := by
  unfold byte
  cases c.code[o]? with
  | none => simp
  | some b => simpa using b.toNat_lt

/-- The pairs that follow a closure, one for each variable that its function captures. -/
theorem captures_eq (o : Nat) :
    c.captures o (o + c.length .closure o : Nat) = (List.range (c.captureCount o)).map fun j =>
      (c.byte (o + 2 + 2 * j), c.byte (o + 3 + 2 * j)) := by
  have : ((o + c.length .closure o : Nat) - (o : Int) - 1).toNat / 2 = c.captureCount o := by
    simp only [length]; omega
  rw [captures, this]

theorem successors_eq (op : Op) (o : Nat) :
    successors c op o (o + c.length op o : Nat) = c.targets op o := by
  cases op <;> rfl

theorem pops_le (c : Chunk Constant) (op : Op) (o : Nat) : c.pops op o ≤ 256 := by
  have := c.byte_lt (o + 1)
  cases op <;> simp only [pops, stackEffect] <;> omega

theorem pushes_le (c : Chunk Constant) (op : Op) (o : Nat) : c.pushes op o ≤ 1 := by
  cases op <;> simp [pushes, stackEffect]

/-- The instruction at `o`, which ends before `behind`, was found in order, heights apart. -/
structure Found (c : Chunk Constant) (upvalueCount : Int) (o : Nat) (op : Op) (behind : Int) :
    Prop where
  op_eq : c.op? o = some op
  length : ∃ size, instructionLength Constant.pool c o = .ok size ∧ behind = c.behind o size
  operands : checkOperands c upvalueCount op o behind = .ok ()

namespace Found

variable (hf : c.Found upvalueCount o op behind)
include hf

theorem lt_size : o < c.code.size := (op?_eq_some hf.op_eq).1

theorem operandLength :
    ∃ size, Parlance.operandLength Constant.pool c op o = .ok size ∧ behind = c.behind o size ∧
    behind ≤ c.code.size := by
  obtain ⟨size, hsize, hbehind⟩ := hf.length
  obtain ⟨-, hbyte⟩ := op?_eq_some hf.op_eq
  unfold instructionLength at hsize
  simp only [Int.natCast_nonneg, if_true, Int.toNat_natCast, hbyte, Op.ofByte?_toByte] at hsize
  split at hsize
  · cases hsize
  · rename_i n hn
    split at hsize
    · rename_i hle
      cases hsize
      exact ⟨_, hn, hbehind, hbehind ▸ hle⟩
    · cases hsize

theorem callee (hop : op = .closure) : ∃ q, c.callee? o = some q ∧ o + 1 < c.code.size ∧
    behind = c.behind o (Number.wrapWord (2 + 2 * q.upvalueCount)) := by
  subst hop
  obtain ⟨size, hsize, hbehind, -⟩ := hf.operandLength
  simp only [Parlance.operandLength] at hsize
  split at hsize
  · cases hsize
  · rename_i index hindex
    split at hsize
    · cases hsize
    · rename_i n hn
      cases hsize
      have hlt := (Array.getElem?_eq_some_iff.1 hindex).1
      have hbyte : c.byte (o + 1) = index.toNat := by simp [byte, hindex]
      obtain ⟨k, hk, hcaptures⟩ := Option.bind_eq_some_iff.1 hn
      cases k with
      | function q =>
        cases hcaptures
        refine ⟨q, ?_, hlt, hbehind⟩
        simp [callee?, hbyte, hk]
      | _ => cases hcaptures

theorem whole : o + (1 + op.width) ≤ c.code.size := by
  have hlt := hf.lt_size
  by_cases hop : op = .closure
  · obtain ⟨q, -, hlt', -⟩ := hf.callee hop
    subst hop
    simp only [Op.width]
    omega
  · obtain ⟨size, hsize, hbehind, hle⟩ := hf.operandLength
    have hlen : Parlance.operandLength Constant.pool c op o = .ok (1 + op.width : Int) := by
      cases op <;> first | rfl | exact (hop rfl).elim
    rw [hlen] at hsize
    cases hsize
    have hwidth : op.width ≤ 2 := by cases op <;> decide
    have hcount : c.count ((o : Int) + (1 + op.width : Int)) = (o + (1 + op.width) : Nat) := by
      rw [show (o : Int) + (1 + op.width : Int) = (o + (1 + op.width) : Nat) by omega]
      exact count_of_le (by omega)
    rw [hbehind, Chunk.behind, hcount] at hle
    exact_mod_cast hle

theorem behind_eq (hs : c.Sane op o) :
    behind = (o + c.length op o : Nat) ∧ o + c.length op o ≤ c.code.size := by
  have hlt := hf.lt_size
  obtain ⟨size, hsize, hbehind, hle⟩ := hf.operandLength
  have hlen : size = c.length op o ∧ c.length op o ≤ 4611686018427387904 := by
    by_cases hop : op = .closure
    · obtain ⟨q, hq, -, hbehind'⟩ := hf.callee hop
      obtain ⟨h0, h1⟩ := hs hop q hq
      subst hop
      have hcount : c.captureCount o = q.upvalueCount.toNat := by simp [captureCount, hq]
      simp only [Parlance.operandLength] at hsize
      split at hsize
      · cases hsize
      · rename_i index hindex
        have hbyte : c.byte (o + 1) = index.toNat := by simp [byte, hindex]
        rw [← hbyte, constants_of_callee? hq] at hsize
        obtain rfl : Number.wrapWord (2 + 2 * q.upvalueCount) = size := by
          simpa [Constant.pool] using hsize
        simp only [Chunk.length, hcount]
        rw [Number.wrapWord_of_lt (by omega) (by omega)]
        omega
    · have hlen : Parlance.operandLength Constant.pool c op o = .ok (1 + op.width : Int) ∧
          c.length op o = 1 + op.width := by
        cases op <;> first | exact ⟨rfl, rfl⟩ | exact (hop rfl).elim
      have hwidth : op.width ≤ 2 := by cases op <;> decide
      rw [hlen.1] at hsize
      cases hsize
      rw [hlen.2]
      omega
  have hcount : c.behind o size = (o + c.length op o : Nat) := by
    rw [Chunk.behind, hlen.1, ← Int.natCast_add]
    exact count_of_le (by omega)
  rw [hbehind, hcount] at hle
  exact ⟨hbehind.trans hcount, by exact_mod_cast hle⟩

theorem operandFits {height : Nat} {after : Int}
    (hslots : checkSlots c op o behind height after = .ok ()) :
    c.OperandFits upvalueCount op o height := by
  have ho := hf.operands
  cases op with
  | constant =>
    simp only [checkOperands] at ho
    split at ho
    · cases ho
    · rename_i k hk
      exact ⟨k, hk⟩
  | getGlobal | defineGlobal | setGlobal =>
    simp only [checkOperands] at ho
    split at ho
    · cases ho
    · rename_i k hk
      cases k with
      | text s => exact ⟨s, hk⟩
      | _ => simp [Constant.pool] at ho
  | getUpvalue | setUpvalue =>
    simp only [checkOperands] at ho
    split at ho
    · assumption
    · cases ho
  | getLocal | setLocal =>
    simp only [checkSlots] at hslots
    split at hslots
    · rename_i hlt
      exact_mod_cast hlt
    · cases hslots
  | closure =>
    obtain ⟨q, hq, -⟩ := hf.callee rfl
    exact ⟨q, hq⟩
  | _ => trivial

theorem capturesFit {height : Nat} (hop : op = .closure) (hs : c.Sane op o)
    (hslots : checkSlots c op o behind height ((height : Int) + 1) = .ok ()) :
    c.CapturesFit upvalueCount o height := by
  subst hop
  obtain ⟨hbehind, -⟩ := hf.behind_eq hs
  have ho := hf.operands
  rw [hbehind] at ho hslots
  simp only [checkOperands, checkSlots, captures_eq] at ho hslots
  intro j hj
  have hmem : (c.byte (o + 2 + 2 * j), c.byte (o + 3 + 2 * j)) ∈ (List.range (c.captureCount o)).map
    fun j =>
      (c.byte (o + 2 + 2 * j), c.byte (o + 3 + 2 * j)) := List.mem_map.2 ⟨j, List.mem_range.2 hj, rfl⟩
  constructor
  · intro hkind
    split at ho
    · cases ho
    · rename_i hnone
      have := List.find?_eq_none.1 hnone _ hmem
      simpa [hkind] using this
  · intro hkind
    split at hslots
    · cases hslots
    · rename_i hnone
      have := List.find?_eq_none.1 hnone _ hmem
      simp only [hkind, beq_self_eq_true, Bool.true_and, decide_eq_true_eq] at this
      omega

end Found

end Chunk

/-! ## Decoding -/

section Decoding

variable {c : Chunk Constant} {upvalueCount : Int}

/-- From one instruction decoding goes on to the next, or comes to the end of the code. -/
theorem decodeFrom_spec (fuel : Nat) {offset : Int} {before found : Array (Nat × Op)}
    (h : decodeFrom c upvalueCount fuel offset before = .ok found) :
    ∃ rest : List (Nat × Op), found = before ++ rest.toArray ∧
      (∀ i ∈ rest, ∃ behind, c.Found upvalueCount i.1 i.2 behind ∧
        (c.code.size ≤ behind ∨ ∃ j ∈ rest, (j.1 : Int) = behind)) ∧
      (c.code.size ≤ offset ∨ ∃ j ∈ rest, (j.1 : Int) = offset) := by
  induction fuel generalizing offset before with
  | zero => cases h
  | succ fuel ih =>
    rw [decodeFrom] at h
    split at h
    · split at h
      · cases h
      · rename_i size op hsize hop
        split at h
        · cases h
        · rename_i hoperands
          have hnonneg : 0 ≤ offset := by
            refine Int.not_lt.1 fun hneg => ?_
            simp [instructionLength, Int.not_le.2 hneg] at hsize
          obtain ⟨n, rfl⟩ := Int.eq_ofNat_of_zero_le hnonneg
          obtain ⟨rest, hfound, hall, hnext⟩ := ih h
          have hthis : c.Found upvalueCount n op (c.behind n size) :=
            ⟨hop, ⟨size, hsize, rfl⟩, hoperands⟩
          refine ⟨(n, op) :: rest, ?_, ?_, Or.inr ⟨_, List.mem_cons_self, rfl⟩⟩
          · rw [hfound]
            simp
          · intro i hi
            rcases List.mem_cons.1 hi with rfl | hi
            · exact ⟨_, hthis, hnext.imp id fun ⟨j, hj, heq⟩ => ⟨j, List.mem_cons_of_mem _ hj, heq⟩⟩
            · obtain ⟨behind, hf, hnext'⟩ := hall i hi
              exact ⟨behind, hf, hnext'.imp id fun ⟨j, hj, heq⟩ => ⟨j, List.mem_cons_of_mem _ hj, heq⟩⟩
      · cases h
    · rename_i hge
      cases h
      exact ⟨[], by simp, by simp, Or.inl (Int.not_lt.1 hge)⟩

theorem mem_of_starts (found : List (Nat × Op)) (marks : Array Bool) {n : Nat}
    (h : (found.foldl (fun a i => a.setIfInBounds i.1 true) marks)[n]? = some true) :
    marks[n]? = some true ∨ ∃ i ∈ found, i.1 = n := by
  induction found generalizing marks with
  | nil => exact Or.inl h
  | cons i found ih =>
    rcases ih _ h with hmark | ⟨j, hj, heq⟩
    · rw [Array.getElem?_setIfInBounds] at hmark
      split at hmark
      · rename_i heq
        exact Or.inr ⟨i, List.mem_cons_self, heq⟩
      · exact Or.inl hmark
    · exact Or.inr ⟨j, List.mem_cons_of_mem _ hj, heq⟩

/-- **Decoding**: the instructions found are in order, the first is at the start of the code, and
each leads to others of them, unless control would leave the code. -/
theorem decode_spec {found : Array (Nat × Op)} (h : decode c upvalueCount = .ok found) :
    (∃ op, (0, op) ∈ found) ∧ ∀ o op, (o, op) ∈ found → ∃ behind, c.Found upvalueCount o op behind ∧
      ∀ d ∈ successors c op o behind, c.code.size ≤ d ∨ ∃ (n : Nat) (op' : Op), d = n ∧
      (n, op') ∈ found := by
  unfold decode at h
  split at h
  · cases h
  · rename_i instructions hdecode
    obtain ⟨rest, hrest, hall, hstart⟩ := decodeFrom_spec _ hdecode
    obtain rfl : instructions = rest.toArray := by simpa using hrest
    split at h
    · rename_i o0 hback
      dsimp only at h
      split at h
      · cases h
      · rename_i hstray
        cases h
        have hmem : ∀ {i}, i ∈ rest.toArray ↔ i ∈ rest := List.mem_toArray
        have hpos : ¬ (c.code.size : Int) ≤ 0 := by
          intro hle
          have hlast : (o0, Op.return) ∈ rest := by
            rw [List.back?_toArray] at hback
            exact List.mem_of_getLast? hback
          obtain ⟨_, hf, -⟩ := hall _ hlast
          have := hf.lt_size
          omega
        refine ⟨?_, fun o op hi => ?_⟩
        · obtain ⟨⟨o, op⟩, hj, heq⟩ := hstart.resolve_left hpos
          obtain rfl : o = 0 := by exact_mod_cast heq
          exact ⟨op, hmem.2 hj⟩
        · obtain ⟨behind, hf, hnext⟩ := hall _ (hmem.1 hi)
          refine ⟨behind, hf, ?_⟩
          have hfall : c.code.size ≤ behind ∨ ∃ (n : Nat) (op' : Op), behind = n ∧
            (n, op') ∈ rest.toArray :=
            hnext.imp id fun ⟨j, hj, heq⟩ => ⟨j.1, j.2, heq.symm, hmem.2 hj⟩
          have hjump : isJump op = true → ∃ (n : Nat) (op' : Op), c.jumpTarget op o = n ∧
              (n, op') ∈ rest.toArray := by
            intro hj
            simp only [List.find?_toArray, List.find?_eq_none, List.foldl_toArray] at hstray
            have := hstray _ (hmem.1 hi)
            simp only [hj, Bool.true_and, Bool.not_eq_true', Bool.not_eq_false, Bool.and_eq_true,
              decide_eq_true_eq, beq_iff_eq] at this
            obtain ⟨hnonneg, hmark⟩ := this
            rcases mem_of_starts rest _ hmark with hnone | ⟨⟨n, op'⟩, hn, heq⟩
            · simp [Array.getElem?_replicate] at hnone
            · simp only at heq
              exact ⟨n, op', by omega, hmem.2 hn⟩
          intro d hd
          cases op <;> simp only [successors, List.mem_cons, List.not_mem_nil, or_false] at hd <;>
            first
              | exact hd ▸ hfall
              | exact Or.inr (hd ▸ hjump rfl)
              | (rcases hd with rfl | rfl
                 · exact Or.inr (hjump rfl)
                 · exact hfall)
    · cases h

end Decoding

end Parlance
