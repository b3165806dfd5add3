/-
  Listings cover the code.
-/
import Parlance.Proofs.Machine.Accepted

namespace Parlance

variable {op : Op} {κ : Type} {pool : Pool κ} {c : Chunk κ} {o : Nat}

/-! ## Pieces -/

namespace Chunk

/-- The functions in the pool capture no negative number of variables, and words can count two bytes
for each of them behind the code. -/
def Roomy (pool : Pool κ) (c : Chunk κ) : Prop := ∀ k ∈ c.constants, ∀ n, pool.captures? k = some n →
  0 ≤ n ∧ c.code.size + 2 + 2 * n < 9223372036854775808

/-- The number of bytes in the piece at `o`. -/
def piece (pool : Pool κ) (c : Chunk κ) (o : Nat) : Nat :=
  match instructionLength pool c o with
  | .ok n => n.toNat
  | .error _ => 1

/-- From `o` on, the code is cut into pieces at the offsets. -/
inductive Cut (pool : Pool κ) (c : Chunk κ) : Nat → List Nat → Prop
  | nil : Cut pool c c.code.size []
  | cons {o : Nat} {os : List Nat} (lt : o < c.code.size)
      (rest : Cut pool c (o + c.piece pool o) os) : Cut pool c o (o :: os)

theorem Cut.unique {os os' : List Nat} (h : c.Cut pool o os) (h' : c.Cut pool o os') : os = os' := by
  induction h generalizing os' with
  | nil =>
    cases h' with
    | nil => rfl
    | cons lt _ => exact (Nat.lt_irrefl _ lt).elim
  | cons lt _ ih =>
    cases h' with
    | nil => exact (Nat.lt_irrefl _ lt).elim
    | cons _ rest => rw [ih rest]

theorem Cut.le {os : List Nat} (h : c.Cut pool o os) : ∀ x ∈ os, o ≤ x := by
  induction h with
  | nil => nofun
  | cons _ _ ih =>
    intro x hx
    rcases List.mem_cons.1 hx with rfl | hx
    · exact Nat.le_refl _
    · exact Nat.le_trans (Nat.le_add_right _ _) (ih x hx)

theorem Cut.increasing {os : List Nat} (h : c.Cut pool o os)
    (hpos : ∀ o < c.code.size, 0 < c.piece pool o) : os.Pairwise (· < ·) := by
  induction h with
  | nil => exact .nil
  | cons lt rest ih =>
    refine .cons (fun x hx => ?_) ih
    have := rest.le x hx
    have := hpos _ lt
    omega

theorem Roomy.operandLength (hroom : c.Roomy pool) {op : Op} {n : Int}
    (hn : Parlance.operandLength pool c op o = .ok n) :
    0 < n ∧ (n ≤ 3 ∨ c.code.size + n < 9223372036854775808) ∧
      (op = .closure → n = 2 + 2 * ((c.constants[c.byte (o + 1)]?).bind pool.captures?).getD 0) := by
  unfold Parlance.operandLength at hn
  split at hn
  · split at hn
    · cases hn
    rename_i index hindex
    split at hn
    · cases hn
    rename_i count hcount
    cases hn
    obtain ⟨k, hk, hcaptures⟩ := Option.bind_eq_some_iff.1 hcount
    obtain ⟨hpos, hlt⟩ := hroom k (Array.mem_of_getElem? hk) count hcaptures
    have hbyte : c.byte (o + 1) = index.toNat := by simp [byte, hindex]
    rw [Number.wrapWord_of_lt (by omega) (by omega), hbyte, hcount, Option.getD_some]
    omega
  · rename_i hop
    cases hn
    have hwidth : op.width ≤ 2 := by cases op <;> decide
    exact ⟨by omega, .inl (by omega), fun h => (hop h).elim⟩

/-- An instruction of known length ends in the code, a closure with its captured variables. -/
theorem Roomy.instruction (hroom : c.Roomy pool) {n : Int} (hn : instructionLength pool c o = .ok n) :
    ∃ op, (c.code[o]?).bind Op.ofByte? = some op ∧ 0 < n ∧ o + n ≤ c.code.size ∧ c.behind o n = o + n ∧
      (op = .closure → n = 2 + 2 * ((c.constants[c.byte (o + 1)]?).bind pool.captures?).getD 0) := by
  unfold instructionLength at hn
  simp only [Int.natCast_nonneg, if_true, Int.toNat_natCast] at hn
  split at hn
  · cases hn
  rename_i byte hbyte
  split at hn
  · cases hn
  rename_i op hop
  split at hn
  · cases hn
  rename_i size hsize
  split at hn
  · rename_i hle
    cases hn
    have hlt := (Array.getElem?_eq_some_iff.1 hbyte).1
    obtain ⟨hpos, hfits, hclosure⟩ := hroom.operandLength hsize
    have hbehind : c.behind o n = o + n := by
      unfold Chunk.behind count
      split
      · rfl
      · exact Number.wrapWord_of_lt (by omega) (by omega)
    exact ⟨op, by simp [hbyte, hop], hpos, hbehind ▸ hle, hbehind, hclosure⟩
  · cases hn

theorem Roomy.piece (hroom : c.Roomy pool) (ho : o < c.code.size) :
    0 < c.piece pool o ∧ o + c.piece pool o ≤ c.code.size := by
  unfold Chunk.piece
  split
  · rename_i n hn
    obtain ⟨op, -, hpos, hle, -⟩ := hroom.instruction hn
    omega
  · omega

/-! ## Listings -/

/-- The listing shows the line for the piece at `o`, and goes on behind it. -/
def Shows (pool : Pool κ) (c : Chunk κ) (o : Nat) (line : String) : Prop :=
  listInstruction? pool c o = some (line, ((o + c.piece pool o : Nat) : Int))

/-- **Every piece is shown.** -/
theorem Roomy.listInstruction (hroom : c.Roomy pool) (hlines : c.lines.size = c.code.size)
    (ho : o < c.code.size) : ∃ line, c.Shows pool o line := by
  have hmark : ∃ mark, lineMark? c o = some mark := by
    unfold lineMark?
    rw [Array.getElem?_eq_getElem (hlines ▸ ho)]
    dsimp only
    split <;> exact ⟨_, rfl⟩
  obtain ⟨mark, hmark⟩ := hmark
  have hbyte := Array.getElem?_eq_getElem ho
  unfold Shows listInstruction? Chunk.piece
  rw [hmark, hbyte]
  cases hn : instructionLength pool c o with
  | error e => exact ⟨_, rfl⟩
  | ok n =>
    obtain ⟨op, hop, hpos, hle, hbehind, hclosure⟩ := hroom.instruction hn
    rw [hbyte, Option.bind_some] at hop
    have htext : ∃ text, instructionText? pool c op o = some text := by
      cases op with
      | closure =>
        have hfits : (o : Int) + 2 + 2 * ((c.constants[c.byte (o + 1)]?).bind pool.captures?).getD
            0 ≤ c.code.size := by
          have := hclosure rfl
          omega
        exact ⟨_, by simp only [instructionText?, captureText?, if_pos hfits, Option.map_some]; rfl⟩
      | _ => exact ⟨_, rfl⟩
    obtain ⟨text, htext⟩ := htext
    simp only [hop, htext, Option.map_some, hbehind]
    exact ⟨_, by congr; omega⟩

/-- The listing under the title shows a line for each of the offsets, which cut the code into
pieces. -/
structure Listed (pool : Pool κ) (c : Chunk κ) (title : String) (offsets : List Nat)
    (lines : List String) : Prop where
  text : listChunk? pool c title = some ("== " ++ title ++ " ==\n" ++ String.join lines)
  lines : List.Forall₂ (c.Shows pool) offsets lines
  cut : c.Cut pool 0 offsets
  increasing : offsets.Pairwise (· < ·)

theorem Roomy.listFrom (hroom : c.Roomy pool) (hlines : c.lines.size = c.code.size) (fuel : Nat)
    (ho : o ≤ c.code.size) (hfuel : c.code.size < o + fuel) (before : String) : ∃ offsets lines,
      listFrom? pool c fuel o before = some (before ++ String.join lines) ∧ c.Cut pool o offsets ∧
      List.Forall₂ (c.Shows pool) offsets lines := by
  induction fuel generalizing o before with
  | zero => omega
  | succ fuel ih =>
    rw [listFrom?]
    split
    · rename_i hlt
      obtain ⟨hpos, hle⟩ := hroom.piece hlt
      obtain ⟨line, hline⟩ := hroom.listInstruction hlines hlt
      obtain ⟨offsets, lines, htext, hcut, hall⟩ := ih hle (by omega) (before ++ line)
      refine ⟨o :: offsets, line :: lines, ?_, .cons hlt hcut, .cons hline hall⟩
      unfold Shows at hline
      rw [hline]
      simp only [Int.natCast_nonneg, if_true, Int.toNat_natCast, htext, String.join_cons,
        String.append_assoc]
    · obtain rfl : o = c.code.size := by omega
      exact ⟨[], [], by simp, .nil, .nil⟩

theorem Roomy.listed (hroom : c.Roomy pool) (hlines : c.lines.size = c.code.size) (title : String) :
    ∃ offsets lines, c.Listed pool title offsets lines := by
  obtain ⟨offsets, lines, htext, hcut, hall⟩ :=
    hroom.listFrom hlines (c.code.size + 1) (Nat.zero_le _) (by omega) ("== " ++ title ++ " ==\n")
  exact ⟨offsets, lines, htext, hall, hcut, hcut.increasing fun _ h => (hroom.piece h).1⟩

end Chunk

/-! ## Accepted code -/

section

variable {c : Chunk Constant} {upvalueCount : Int}

theorem Chunk.Roomy.decodeFrom (hroom : c.Roomy Constant.pool) (fuel : Nat) {o : Nat}
    (ho : o ≤ c.code.size)
    {before found : Array (Nat × Op)}
    (h : Parlance.decodeFrom c upvalueCount fuel o before = .ok found) :
    ∃ rest : List (Nat × Op), found = before ++ rest.toArray ∧
      c.Cut Constant.pool o (rest.map (·.1)) := by
  induction fuel generalizing o before with
  | zero => cases h
  | succ fuel ih =>
    rw [Parlance.decodeFrom] at h
    split at h
    · rename_i hlt
      split at h
      · cases h
      · rename_i size op hsize hop
        split at h
        · cases h
        · obtain ⟨-, -, hpos, hle, hbehind, -⟩ := hroom.instruction hsize
          have hpiece : (o : Int) + size = (o + c.piece Constant.pool o : Nat) := by
            rw [Chunk.piece, hsize]
            dsimp only
            omega
          rw [hbehind, hpiece] at h
          obtain ⟨rest, hfound, hcut⟩ := ih (hroom.piece (by omega)).2 h
          refine ⟨(o, op) :: rest, by simp [hfound], .cons (by omega) hcut⟩
      · cases h
    · cases h
      obtain rfl : o = c.code.size := by omega
      exact ⟨[], by simp, .nil⟩

theorem Chunk.Roomy.decode (hroom : c.Roomy Constant.pool) {found : Array (Nat × Op)}
    (h : Parlance.decode c upvalueCount = .ok found) :
    c.Cut Constant.pool 0 (found.toList.map (·.1)) := by
  unfold Parlance.decode at h
  split at h
  · cases h
  rename_i instructions hdecode
  obtain ⟨rest, hrest, hcut⟩ := hroom.decodeFrom _ (Nat.zero_le _) hdecode
  have heq : instructions = found := by
    split at h
    · dsimp only at h
      split at h <;> cases h
      rfl
    · cases h
  rw [← heq, hrest]
  simpa using hcut

end

/-- The line of a jump ends with its target. -/
theorem Chunk.Shows.jump {line : String} (h : c.Shows pool o line)
    (hop : (c.code[o]?).bind Op.ofByte? = some op)
    (hjump : isJump op = true) (hn : ∃ n, instructionLength pool c o = .ok n) :
    ∃ mark, lineMark? c o = some mark ∧
      line = offsetText o ++ " " ++ mark ++
      (operandText op o ++ " -> " ++ toString (c.jumpTarget op o) ++ "\n") := by
  obtain ⟨n, hn⟩ := hn
  obtain ⟨byte, hbyte, hop⟩ := Option.bind_eq_some_iff.1 hop
  have htext : instructionText? pool c op o =
      some (operandText op o ++ " -> " ++ toString (c.jumpTarget op o) ++ "\n") := by
    cases op with
    | jump | jumpIfFalse | loop => rfl
    | _ => cases hjump
  unfold Shows listInstruction? at h
  cases hmark : lineMark? c o with
  | none =>
    rw [hmark] at h
    cases h
  | some mark =>
    simp only [hmark, hbyte, hn, hop, htext, Option.map_some, Option.some.injEq, Prod.mk.injEq] at h
    exact ⟨mark, rfl, h.1.symm⟩

/-- **Taking a jump**: control goes on at the target. -/
theorem Exec.perform_jump {p : Proto} {m : Machine} {below : Array Frame} {f : Frame} {n t : Nat}
    (host : Host) (hf : m.frames = below.push f) (hr : m.heap.Runs f.closure p) (hip : f.ip = o + 1)
    (hn : p.chunk.short? (o + 1) = some n) (hjump : isJump op = true)
    (ht : p.chunk.jumpTarget op o = t)
    (htaken : op = .jumpIfFalse → ∃ v, m.stack.peek? 0 = some v ∧ v.isFalsey = true) :
    (perform host op) m = .ok .running { m with frames := below.push { f with ip := t } } := by
  have hread := readShort_eq hf hr (hip ▸ hn)
  have hframe := frame_eq (m := { m with frames := below.push { f with ip := f.ip + 2 } }) rfl
  have hgo := jumpTo_eq (m := { m with frames := below.push { f with ip := f.ip + 2 } }) rfl t
  simp only [Chunk.jumpTarget, hn, Option.getD_some] at ht
  unfold perform
  cases op with
  | jump =>
    obtain rfl : f.ip + 2 + n = t := by dsimp only at ht; omega
    exact (run_bind hread).trans ((run_bind hframe).trans (run_bind hgo))
  | jumpIfFalse =>
    obtain rfl : f.ip + 2 + n = t := by dsimp only at ht; omega
    obtain ⟨v, hv, hfalse⟩ := htaken rfl
    have hpeek : peek 0 { m with frames := below.push { f with ip := f.ip + 2 } } = .ok v
        { m with frames := below.push { f with ip := f.ip + 2 } } := by
      show need (m.stack.peek? 0) _ = _
      rw [hv]
      rfl
    refine (run_bind hread).trans ((run_bind hpeek).trans ?_)
    rw [if_pos hfalse]
    exact (run_bind hframe).trans (run_bind hgo)
  | loop =>
    dsimp only at ht
    have hle : n ≤ f.ip + 2 := by omega
    obtain rfl : f.ip + 2 - n = t := by omega
    refine (run_bind hread).trans ((run_bind hframe).trans ?_)
    dsimp only
    rw [if_pos hle]
    exact run_bind hgo
  | _ => cases hjump

/-- What is known of a jump in accepted code. -/
theorem Chunk.exists_target {c : Chunk Constant} {upvalueCount : Int} {found : Array (Nat × Op)}
    (h : decode c upvalueCount = .ok found) (hmem : (o, op) ∈ found) (hjump : isJump op = true) :
    c.op? o = some op ∧ (∃ size, instructionLength Constant.pool c o = .ok size) ∧
    (∃ n, c.short? (o + 1) = some n) ∧
      ∃ t : Nat, c.jumpTarget op o = t := by
  obtain ⟨behind, hf, hnext⟩ := (decode_spec h).2 o op hmem
  obtain ⟨size, hsize, -⟩ := hf.length
  have hwhole := hf.whole
  have hwidth : op.width = 2 ∧ c.jumpTarget op o ∈ successors c op o behind := by
    cases op with
    | jump | jumpIfFalse | loop => exact ⟨rfl, List.mem_cons_self⟩
    | _ => cases hjump
  refine ⟨hf.op_eq, ⟨size, hsize⟩, ?_, ?_⟩
  · rw [short?, Array.getElem?_eq_getElem (by omega), Array.getElem?_eq_getElem (by omega)]
    exact ⟨_, rfl⟩
  · rcases hnext _ hwidth.2 with hle | ⟨t, -, ht, -⟩
    · exact ⟨_, (Int.toNat_of_nonneg (by omega)).symm⟩
    · exact ⟨t, ht⟩

/-- **Listings cover the code.** A chunk with a line for each byte, in whose pool words can count
what functions capture, is listed without a fault: the offsets begin at 0, increase, and cut the
code into pieces, which are instructions where there are any. In accepted code these are the
instructions that the checks found; and the target that is shown for a jump is where control goes on
when the jump is taken. -/
theorem listing_covers (title : String) :
    (∀ {κ : Type} {pool : Pool κ} {c : Chunk κ}, c.lines.size = c.code.size → c.Roomy pool →
      ∃ offsets lines, c.Listed pool title offsets lines) ∧
    ∀ {p : Proto} {offsets : List Nat} {lines : List String}, p.verify = .ok () →
      p.chunk.Roomy Constant.pool → p.chunk.Listed Constant.pool title offsets lines →
      (∃ found, decode p.chunk p.upvalueCount = .ok found ∧ found.toList.map (·.1) = offsets) ∧
      ∀ {o op line}, o ∈ offsets → p.chunk.op? o = some op → isJump op = true →
        p.chunk.Shows Constant.pool o line →
        ∃ (t : Nat) (mark : String), lineMark? p.chunk o = some mark ∧
          line = offsetText o ++ " " ++ mark ++ (operandText op o ++ " -> " ++ toString t ++ "\n") ∧
          ∀ {m : Machine} {below : Array Frame} {f : Frame} (host : Host), m.frames = below.push f →
            m.heap.Runs f.closure p → f.ip = o + 1 →
            (op = .jumpIfFalse → ∃ v, m.stack.peek? 0 = some v ∧ v.isFalsey = true) →
            (Exec.perform host op) m =
              .ok .running { m with frames := below.push { f with ip := t } } := by
  refine ⟨fun hlines hroom => Chunk.Roomy.listed hroom hlines title,
    fun {p offsets lines} hverify hroom hlisted => ?_⟩
  obtain ⟨-, found, -, hfound, -⟩ := Proto.check_spec (Proto.check_of_verify hverify)
  have hoffsets := (hroom.decode hfound).unique hlisted.cut
  refine ⟨⟨found, hfound, hoffsets⟩, fun {o op line} ho hop hjump hshows => ?_⟩
  obtain ⟨⟨o', op'⟩, hmem, heq⟩ := List.mem_map.1 (hoffsets ▸ ho)
  obtain rfl : o' = o := heq
  have hop' : p.chunk.op? o' = some op' := by
    obtain ⟨_, hf, -⟩ := (decode_spec hfound).2 _ _ (Array.mem_toList_iff.1 hmem)
    exact hf.op_eq
  obtain rfl : op' = op := Option.some.inj (hop'.symm.trans hop)
  obtain ⟨-, hsize, ⟨n, hn⟩, t, ht⟩ := Chunk.exists_target hfound (Array.mem_toList_iff.1 hmem) hjump
  obtain ⟨mark, hmark, hline⟩ := hshows.jump hop hjump hsize
  rw [ht] at hline
  exact ⟨t, mark, hmark, hline, fun host hf hr hip htaken =>
    Exec.perform_jump host hf hr hip hn hjump ht htaken⟩

/-- A function with a jump. -/
def jumpingFunction : Proto where
  code := #[Op.pushTrue.toByte, Op.jumpIfFalse.toByte, 0, 0, Op.return.toByte]
  lines := #[1, 1, 1, 1, 2]

theorem listing_covers_jumping : jumpingFunction.verify = .ok () ∧ ∃ lines line mark, ∃ t : Nat,
    jumpingFunction.chunk.Listed Constant.pool "script" [0, 1, 4] lines ∧
    jumpingFunction.chunk.Shows Constant.pool 1 line ∧
    line = offsetText 1 ++ " " ++ mark ++
    (operandText .jumpIfFalse 1 ++ " -> " ++ toString t ++ "\n") := by
  have hverify : jumpingFunction.verify = .ok () := by decide +kernel
  have hroom : jumpingFunction.chunk.Roomy Constant.pool := nofun
  have hdecode : (match decode jumpingFunction.chunk 0 with
    | .ok found => found.toList.map (·.1)
    | .error _ => []) = [0, 1, 4] := by decide +kernel
  obtain ⟨offsets, lines, hlisted⟩ := (listing_covers "script").1 rfl hroom
  obtain ⟨⟨found, hfound, hoffsets⟩, hjumps⟩ := (listing_covers "script").2 hverify hroom hlisted
  rw [show decode jumpingFunction.chunk 0 = .ok found from hfound] at hdecode
  obtain rfl : offsets = [0, 1, 4] := hoffsets.symm.trans hdecode
  obtain ⟨line, hline⟩ : ∃ line, jumpingFunction.chunk.Shows Constant.pool 1 line :=
    hroom.listInstruction rfl (by decide)
  obtain ⟨t, mark, -, heq, -⟩ :=
    hjumps (by decide) (show jumpingFunction.chunk.op? 1 = some .jumpIfFalse by decide) rfl hline
  exact ⟨hverify, lines, line, mark, t, hlisted, hline, heq⟩

/-- A closure of a function with more captured variables than words can count in bytes. -/
def wrappingChunk : Chunk Constant where
  code := #[Op.closure.toByte, 0, Op.return.toByte]
  lines := #[1, 1, 1]
  constants := #[.function { upvalueCount := 4611686018427387904 }]

/-- No negative number of variables is not enough: the length of the closure wraps around. -/
theorem listing_wraps : wrappingChunk.lines.size = wrappingChunk.code.size ∧
    (∀ k ∈ wrappingChunk.constants, ∀ n, Constant.pool.captures? k = some n → 0 ≤ n) ∧
    instructionLength Constant.pool wrappingChunk 0 = .ok (-9223372036854775806) ∧
    listChunk? Constant.pool wrappingChunk "script" = none := by
  refine ⟨rfl, ?_, by decide +kernel, by decide +kernel⟩
  intro k hk n hn
  simp only [wrappingChunk, List.mem_toArray, List.mem_singleton] at hk
  subst hk
  cases hn
  decide

end Parlance
