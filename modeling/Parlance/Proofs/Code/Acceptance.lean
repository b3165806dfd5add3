/-
  Code with a complete chart passes the checks.
-/
import Parlance.Proofs.Code.Search

namespace Parlance

namespace Chunk

variable {c : Chunk Constant} {upvalueCount : Int} {op : Op} {o : Nat} {w : Window}

theorem behind_of_le {n : Nat} (h : o + n ≤ c.code.size) : c.behind o n = (o + n : Nat) := by
  rw [behind, ← Int.natCast_add]
  exact count_of_le (by omega)

/-! ## One instruction -/

section

variable (h : c.Fits upvalueCount op o w)
include h

theorem Fits.lt_size : o < c.code.size := (op?_eq_some h.op_eq).1

theorem operandLength_eq (hs : c.Sane op o) :
    operandLength Constant.pool c op o = .ok (c.length op o) := by
  cases op with
  | closure =>
    obtain ⟨q, hq⟩ := h.operand
    have hin := h.inside hs
    simp only [length] at hin
    have hlt : o + 1 < c.code.size := by omega
    have hk := constants_of_callee? hq
    have hbyte : c.byte (o + 1) = (c.code[o + 1]).toNat := by simp [byte, hlt]
    have hcount : c.captureCount o = q.upvalueCount.toNat := by simp [captureCount, hq]
    obtain ⟨h0, h1⟩ := hs rfl q hq
    rw [hbyte] at hk
    simp only [operandLength, Array.getElem?_eq_getElem hlt, hk, Option.bind_some, Constant.pool,
      length, hcount]
    rw [Number.wrapWord_of_lt (by omega) (by omega)]
    congr 1
    omega
  | _ => simp [operandLength, length]

theorem instructionLength_eq (hs : c.Sane op o) :
    instructionLength Constant.pool c o = .ok (c.length op o) := by
  obtain ⟨hlt, hb⟩ := op?_eq_some h.op_eq
  have hin := h.inside hs
  unfold instructionLength
  simp only [Int.natCast_nonneg, if_true, Int.toNat_natCast, hb, Op.ofByte?_toByte,
    operandLength_eq h hs, behind_of_le hin]
  rw [if_pos (by exact_mod_cast hin)]

theorem checkOperands_eq (hs : c.Sane op o) :
    checkOperands c upvalueCount op o (o + c.length op o : Nat) = .ok () := by
  have ho := h.operand
  cases op with
  | constant => obtain ⟨k, hk⟩ := ho; simp [checkOperands, hk]
  | getGlobal | defineGlobal | setGlobal =>
    obtain ⟨s, hk⟩ := ho; simp [checkOperands, hk, Constant.pool]
  | getUpvalue | setUpvalue => exact if_pos ho
  | closure =>
    have hc := h.captures hs rfl
    simp only [checkOperands, captures_eq]
    rw [List.find?_eq_none.2]
    intro x hx
    obtain ⟨j, hj, rfl⟩ := List.mem_map.1 hx
    have := (hc j (List.mem_range.1 hj)).1
    simp only [beq_iff_eq, Bool.and_eq_true, decide_eq_true_eq, not_and, Int.not_le]
    exact this
  | _ => rfl

theorem checkSlots_eq (hs : c.Sane op o) :
    checkSlots c op o (o + c.length op o : Nat) w.height (c.after op o w).height = .ok () := by
  have ho := h.operand
  cases op with
  | getLocal | setLocal => exact if_pos (by exact_mod_cast ho)
  | closure =>
    have hc := h.captures hs rfl
    simp only [checkSlots, captures_eq]
    rw [List.find?_eq_none.2]
    intro x hx
    obtain ⟨j, hj, rfl⟩ := List.mem_map.1 hx
    have := (hc j (List.mem_range.1 hj)).2
    simp only [beq_iff_eq, Bool.and_eq_true, decide_eq_true_eq, not_and, Int.not_le]
    intro h1
    have h2 := this h1
    simp only [after, pops, pushes, stackEffect]
    omega
  | _ => rfl

theorem Fits.found (hs : c.Sane op o) : c.Found upvalueCount o op (o + c.length op o : Nat) :=
  ⟨h.op_eq, ⟨_, instructionLength_eq h hs, (behind_of_le (h.inside hs)).symm⟩, checkOperands_eq h hs⟩

theorem Fits.leads_iff (hs : c.Sane op o) {d : Int} : c.Leads o d ↔ d ∈ c.targets op o := by
  rw [(h.found hs).leads_iff, successors_eq]

end

end Chunk

/-! ## Complete charts -/

/-- The instructions of the chart follow each other from the first byte of the code to the return at
its end. -/
structure Proto.Assembled (p : Proto) (t : Chart) : Prop extends p.Charted t where
  lines_eq : p.lines.size = p.code.size
  pool : p.constants.length ≤ maxConstants
  arity_nonneg : 0 ≤ p.arity
  arity_le : p.arity ≤ 255
  tidy : ∀ {o w op}, t o = some w → p.chunk.op? o = some op → p.chunk.Tidy op o w
  low : ∀ {o w}, t o = some w → w.height ≤ 512 + o
  next : ∀ {o w op}, t o = some w → p.chunk.op? o = some op →
    o + p.chunk.length op o = p.code.size ∨ (t (o + p.chunk.length op o)).isSome
  apart : ∀ {o w o' op}, t o = some w → p.chunk.op? o = some op → (t o').isSome → o < o' →
    o + p.chunk.length op o ≤ o'
  ends : p.chunk.op? (p.code.size - 1) = some .return ∧ (t (p.code.size - 1)).isSome

namespace Proto.Assembled

variable {o : Nat} {p : Proto} {t : Chart} (h : p.Assembled t)
include h

theorem fits_op {w : Window} (ho : t o = some w) :
    ∃ op, p.chunk.Fits p.upvalueCount op o w ∧ p.chunk.Sane op o ∧
      o + p.chunk.length op o ≤ p.code.size := by
  obtain ⟨op, hf⟩ := h.fits ho
  have hs := (h.tidy ho hf.op_eq).sane
  exact ⟨op, hf, hs, hf.inside hs⟩

/-- What decoding finds from a charted offset on: charted instructions, every one of them, the last
of which ends the code. -/
theorem decodeFrom_eq (fuel o : Nat) (before : Array (Nat × Op))
    (ho : o = p.code.size ∨ (t o).isSome) (hfuel : p.code.size < fuel + o) :
    ∃ found : List (Nat × Op), decodeFrom p.chunk p.upvalueCount fuel o before =
      .ok (before ++ found) ∧ (∀ i ∈ found, (t i.1).isSome ∧ p.chunk.op? i.1 = some i.2) ∧
      (∀ o', o ≤ o' → (t o').isSome → ∃ i ∈ found, i.1 = o') ∧
      (∀ i ∈ found.getLast?, i.1 + p.chunk.length i.2 i.1 = p.code.size) ∧
      (found = [] → o = p.code.size) := by
  induction fuel generalizing o before with
  | zero =>
    exfalso
    rcases ho with rfl | ho
    · omega
    · obtain ⟨w, hw⟩ := Option.isSome_iff_exists.1 ho
      obtain ⟨op, hf, -, -⟩ := h.fits_op hw
      have : o < p.code.size := hf.lt_size
      omega
  | succ fuel ih =>
    by_cases hend : o = p.code.size
    · subst hend
      refine ⟨[], by simp [decodeFrom, Proto.chunk], by simp, ?_, by simp, fun _ => rfl⟩
      intro o' ho' hs
      obtain ⟨w, hw⟩ := Option.isSome_iff_exists.1 hs
      obtain ⟨op, hf, -, -⟩ := h.fits_op hw
      have : o' < p.code.size := hf.lt_size
      omega
    · obtain ⟨w, hw⟩ := Option.isSome_iff_exists.1 (ho.resolve_left hend)
      obtain ⟨op, hf, hs, hin⟩ := h.fits_op hw
      have hpos := p.chunk.length_pos op o
      obtain ⟨found, hdec, hop, hall, hlast, hnil⟩ := ih (o + p.chunk.length op o)
        (before.push (o, op)) (h.next hw hf.op_eq) (by omega)
      refine ⟨(o, op) :: found, ?_, ?_, ?_, ?_, by simp⟩
      · have hlt : (o : Int) < p.chunk.code.size := by exact_mod_cast hf.lt_size
        have hop? : p.chunk.code[o]?.bind Op.ofByte? = some op := hf.op_eq
        rw [decodeFrom, if_pos hlt]
        simp only [Int.toNat_natCast, p.chunk.instructionLength_eq hf hs, hop?,
          p.chunk.behind_of_le hin, p.chunk.checkOperands_eq hf hs, hdec]
        simp
      · intro i hi
        rcases List.mem_cons.1 hi with rfl | hi
        · exact ⟨by simp [hw], hf.op_eq⟩
        · exact hop i hi
      · intro o' ho' hs'
        by_cases heq : o' = o
        · exact ⟨(o, op), List.mem_cons_self, heq.symm⟩
        · obtain ⟨i, hi, he⟩ := hall o' (h.apart hw hf.op_eq hs' (by omega)) hs'
          exact ⟨i, List.mem_cons_of_mem _ hi, he⟩
      · intro i hi
        cases found with
        | nil =>
          simp only [List.getLast?_singleton, Option.mem_some_iff] at hi
          subst hi
          exact hnil rfl
        | cons j js => exact hlast i (by simpa using hi)

theorem eq_return_of_ends {op : Op} (ho : (t o).isSome) (hop : p.chunk.op? o = some op)
    (hend : o + p.chunk.length op o = p.code.size) : op = .return := by
  obtain ⟨w, hw⟩ := Option.isSome_iff_exists.1 ho
  have hpos := p.chunk.length_pos op o
  have heq : o = p.code.size - 1 := by
    by_cases hlt : o < p.code.size - 1
    · have := h.apart hw hop h.ends.2 hlt
      omega
    · omega
  rw [heq, h.ends.1] at hop
  exact (Option.some.inj hop).symm

theorem jumpTarget_eq {op : Op} (ho : (t o).isSome) (hop : p.chunk.op? o = some op)
    (hjump : isJump op) : ∃ n : Nat, p.chunk.jumpTarget op o = n ∧ (t n).isSome := by
  obtain ⟨w, hw⟩ := Option.isSome_iff_exists.1 ho
  have hmem : p.chunk.jumpTarget op o ∈ p.chunk.targets op o := by
    cases op <;> simp_all [isJump, Chunk.targets]
  obtain ⟨n, hn, w', hw', -⟩ := h.flows hw hop (h.tidy hw hop).sane _ hmem
  exact ⟨n, hn, by simp [hw']⟩

omit h in
theorem starts_get (found : List (Nat × Op)) (marks : Array Bool) {n : Nat} (hn : n < marks.size)
    (hs : marks[n]? = some true ∨ ∃ i ∈ found, i.1 = n) :
    (found.foldl (fun a i => a.setIfInBounds i.1 true) marks)[n]? = some true := by
  induction found generalizing marks with
  | nil => simpa using hs
  | cons i found ih =>
    refine ih (marks.setIfInBounds i.1 true) (by simpa using hn) ?_
    rcases hs with hs | ⟨j, hj, rfl⟩
    · left
      rw [Array.getElem?_setIfInBounds]
      split <;> simp_all
    · rcases List.mem_cons.1 hj with rfl | hj
      · left; simp [hn]
      · exact Or.inr ⟨j, hj, rfl⟩

theorem decode_eq : ∃ found, decode p.chunk p.upvalueCount = .ok found := by
  obtain ⟨hret, hsome⟩ := h.ends
  have hzero : (0 : Nat) = p.code.size ∨ (t 0).isSome := by
    obtain ⟨w, hw, -⟩ := h.entry
    exact Or.inr (by simp [hw])
  obtain ⟨found, hdec, hop, hall, hlast, hnil⟩ :=
    h.decodeFrom_eq (p.code.size + 1) 0 #[] hzero (by omega)
  have hne : found ≠ [] := by
    intro he
    have := hnil he
    have hlt : p.code.size - 1 < p.code.size := (Chunk.op?_eq_some hret).1
    omega
  obtain ⟨⟨o, op⟩, hi⟩ : ∃ i, found.getLast? = some i := ⟨_, List.getLast?_eq_some_getLast hne⟩
  obtain ⟨hs, hop'⟩ := hop _ (List.mem_of_getLast? hi)
  obtain rfl := h.eq_return_of_ends hs hop' (hlast _ hi)
  refine ⟨found.toArray, ?_⟩
  have hdec' : decodeFrom p.chunk p.upvalueCount (p.chunk.code.size + 1) 0 #[] =
      .ok found.toArray := by simpa [Proto.chunk] using hdec
  simp only [decode, hdec', List.back?_toArray, hi, List.find?_toArray, List.foldl_toArray]
  rw [List.find?_eq_none.2]
  rintro ⟨o', op'⟩ hmem
  obtain ⟨hs', hop''⟩ := hop _ hmem
  by_cases hj : isJump op'
  · obtain ⟨n, hn, hsn⟩ := h.jumpTarget_eq hs' hop'' hj
    obtain ⟨w', hw'⟩ := Option.isSome_iff_exists.1 hsn
    obtain ⟨_, hf, -, -⟩ := h.fits_op hw'
    have hlt : n < (Array.replicate p.chunk.code.size false).size := by simpa using hf.lt_size
    simp [hn, starts_get found _ hlt (Or.inr (hall n (Nat.zero_le n) hsn))]
  · simp [hj]

/-! ## Heights -/

theorem charted {d : Int} (hd : p.chunk.Reached d) :
    ∃ (n : Nat) (w : Window), d = n ∧ t n = some w := by
  induction hd with
  | start =>
    obtain ⟨w, hw, -⟩ := h.entry
    exact ⟨0, w, rfl, hw⟩
  | @next o d _ hd ih =>
    obtain ⟨n, w, heq, hw⟩ := ih
    obtain rfl := Int.ofNat_inj.1 heq
    obtain ⟨op, hf, hs, -⟩ := h.fits_op hw
    obtain ⟨n, hn, w', hw', -⟩ := h.flows hw hf.op_eq hs d (hf.leads_iff hs |>.1 hd)
    exact ⟨n, w', hn, hw'⟩

theorem levels :
    p.chunk.Levels id p.arity fun d => ((t d.toNat).map fun w => (w.height : Int)).getD 0 := by
  have hat : ∀ {o : Nat} {op : Op}, p.chunk.Reached o → p.chunk.op? o = some op →
      ∃ w, t o = some w ∧ p.chunk.Fits p.upvalueCount op o w ∧ p.chunk.Sane op o := by
    intro o op ho hop
    obtain ⟨n, w, heq, hw⟩ := h.charted ho
    obtain rfl := Int.ofNat_inj.1 heq
    obtain ⟨op', hf, hs, -⟩ := h.fits_op hw
    obtain rfl := Option.some.inj (hf.op_eq.symm.trans hop)
    exact ⟨w, hw, hf, hs⟩
  have hleaves : ∀ {o : Nat} {op : Op} {w : Window}, p.chunk.Fits p.upvalueCount op o w →
      p.chunk.leaves id op o w.height = (p.chunk.after op o w).height := by
    intro o op w hf
    have hroom := hf.room
    simp only [Chunk.leaves, Chunk.after, id]
    omega
  refine ⟨?_, fun ho hop => ?_, fun ho hop hslot => ?_, fun {o size} ho hop hsize => ?_,
    fun ho hd => ?_, fun {o op d} ho hop hd => ?_⟩
  · obtain ⟨w, hw, hle⟩ := h.entry
    have hheight : (1 + p.arity).toNat = w.height := hle.1
    have ha := h.arity_nonneg
    simp only [Int.toNat_zero, hw, Option.map_some, Option.getD_some, id]
    omega
  · obtain ⟨w, hw, hf, -⟩ := hat ho hop
    have hroom := hf.room
    simp only [Int.toNat_natCast, hw, Option.map_some, Option.getD_some, id]
    omega
  · obtain ⟨w, hw, hf, hs⟩ := hat ho hop
    simpa [hw] using (Chunk.checkSlots_eq_ok_iff.1 (Chunk.checkSlots_eq hf hs)).1 hslot
  · obtain ⟨w, hw, hf, hs⟩ := hat ho hop
    obtain rfl := Except.ok.inj ((Chunk.instructionLength_eq hf hs).symm.trans hsize)
    simpa [hw, hleaves hf, Chunk.behind_of_le (hf.inside hs)] using
      (Chunk.checkSlots_eq_ok_iff.1 (Chunk.checkSlots_eq hf hs)).2 rfl
  · obtain ⟨n, w, rfl, hw⟩ := h.charted (ho.next hd)
    obtain ⟨op, hf, -, -⟩ := h.fits_op hw
    have := hf.lt_size
    omega
  · obtain ⟨w, hw, hf, hs⟩ := hat ho hop
    obtain ⟨n, rfl, w', hw', hle⟩ := h.flows hw hop hs d (hf.leads_iff hs |>.1 hd)
    simp [hw, hw', hleaves hf, hle.1]

/-- **Code with a complete chart passes the checks.** -/
theorem check : p.check = .ok () := by
  obtain ⟨found, hdec⟩ := h.decode_eq
  have ha := h.arity_nonneg
  have ha' := h.arity_le
  obtain ⟨k, hheights⟩ := exists_checkHeights hdec (.inr ⟨rfl, by omega⟩) h.levels
  have hlines : p.chunk.lines.size = p.chunk.code.size := h.lines_eq
  have hpool : p.chunk.constants.size ≤ maxConstants := by
    simpa [Proto.chunk] using h.pool
  simp [Proto.check, hlines, Nat.not_lt.2 hpool, hdec, hheights]

end Proto.Assembled

/-! ## Functions -/

/-- A function with a complete chart, and so all functions among its constants. -/
inductive Proto.Sound : Proto → Prop where
  | intro {p : Proto} (t : Chart) (assembled : p.Assembled t)
      (nested : ∀ q, Constant.function q ∈ p.constants → q.Sound) : p.Sound

theorem Constant.verifyAll_eq {ks : List Constant}
    (h : ∀ q, Constant.function q ∈ ks → q.verify = .ok ()) : Constant.verifyAll ks = .ok () := by
  induction ks with
  | nil => simp [Constant.verifyAll]
  | cons k ks ih =>
    have hk : k.verify = .ok () := by
      cases k with
      | function q => simpa [Constant.verify] using h q List.mem_cons_self
      | _ => simp [Constant.verify]
    rw [Constant.verifyAll, hk]
    exact ih fun q hq => h q (List.mem_cons_of_mem _ hq)

theorem Proto.verify_eq {p : Proto} (hcheck : p.check = .ok ())
    (hnested : ∀ q, Constant.function q ∈ p.constants → q.verify = .ok ()) : p.verify = .ok () := by
  obtain ⟨_, _, _, _, _, _⟩ := p
  rw [Proto.verify]
  simp only [hcheck]
  exact Constant.verifyAll_eq hnested

/-- **A sound function is accepted**, with the functions in it. -/
theorem Proto.Sound.verify {p : Proto} (h : p.Sound) : p.verify = .ok () := by
  induction h with
  | intro t assembled _ ih => exact Proto.verify_eq assembled.check ih

end Parlance
