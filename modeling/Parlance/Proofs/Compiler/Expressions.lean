/-
  Expressions leave one value.

  * `parseVariable_spec`, `parseOpening_spec`: an operand.
  * `parseOperator_spec`, `parseOperators_spec`: what stands on both sides of an operator becomes
    one value.
-/
import Parlance.Proofs.Compiler.Goals

namespace Parlance.Comp

open Compilation

variable {v : Access} {op : Op} {b : Nat} {self : Recur} {K : Context} {A : List Context}
  {ps : List Jump} {rs : List Loop} {h : Nat} {k : Token.Kind}

/-- The operation takes two values and leaves one. -/
def Binary (op : Op) : Prop := stackEffect op 0 = (2, 1) ∧ op.width = 0 ∧ op.falls = true

theorem binary_of_compoundOp? (hop : compoundOp? k = some op) : Binary op := by
  cases k <;> simp only [compoundOp?, Option.some.injEq, reduceCtorEq] at hop <;> subst hop <;>
    exact ⟨rfl, rfl, rfl⟩

theorem binary_of_binaryOp? (hop : binaryOp? k = some op) : Binary op := by
  cases k <;> simp only [binaryOp?, Option.some.injEq, reduceCtorEq] at hop <;> subst hop <;>
    exact ⟨rfl, rfl, rfl⟩

theorem binary_incrementOp (k : Token.Kind) : Binary (incrementOp k) := by
  unfold incrementOp
  split <;> exact ⟨rfl, rfl, rfl⟩

theorem emit_binary_spec (hb : Context.Base K rs h) :
    Triple (fun s => Binary op ∧ Stands K A ps rs (h + 2) s ∧ v.Serves s.context b) (emit op)
      fun _ s => Stands K A ps rs (h + 1) s ∧ v.Serves s.context b :=
  Triple.given fun hop => Triple.along Access.Serves.kept fun _ hk =>
    emit_spec op hop.1 hop.2.1 hop.2.2 (hb.kept hk)

theorem serves_advance : Triple (fun s => Stands K A ps rs h s ∧ v.Serves s.context b) advance
      fun _ s => Stands K A ps rs h s ∧ v.Serves s.context b :=
  Triple.along Access.Serves.kept fun _ _ => advance_spec

theorem serves_accept :
    Triple (fun s => Stands K A ps rs h s ∧ v.Serves s.context b) (accept k)
      fun _ s => Stands K A ps rs h s ∧ v.Serves s.context b :=
  Triple.along Access.Serves.kept fun _ _ => accept_spec

theorem acceptCompound_spec {P : Compilation → Prop} (hP : Triple P advance fun _ => P) :
    Triple P acceptCompound fun o s => (∀ op ∈ o, Binary op) ∧ P s := by
  refine Triple.get.bind fun a => ?_
  split
  · rename_i op hop
    refine (hP.pre fun s hs => hs.2).bind fun _ => Triple.pure fun s hs => ⟨?_, hs⟩
    rintro _ ⟨⟩
    exact binary_of_compoundOp? hop
  · exact Triple.pure fun s hs => ⟨by simp, hs.2⟩

/-! ## Operands -/

theorem Meets.value_serves (hself : Meets self) (hb : Context.Base K rs h) :
    Triple (fun s => Stands K A ps rs h s ∧ v.Serves s.context b) (self (.expression .assignment))
      fun _ s => Stands K A ps rs (h + 1) s ∧ v.Serves s.context b :=
  Triple.along Access.Serves.kept fun _ hk => hself.expression (by decide) (hb.kept hk)

section

variable {v : Access} (hb : Context.Base K rs h)
include hb

/-- The new value comes to stand above what stands there. -/
theorem emitChange_spec {n : Nat} (hle : h ≤ n) (k : Token.Kind) :
    Triple (fun s => Stands K A ps rs n s ∧ v.Serves s.context h)
      (emitChange v (incrementOp k)) fun _ => Stands K A ps rs (n + 1) := by
  have hn := hb.mono hle
  refine (read_spec hb hle).bind fun _ => ?_
  refine (Triple.along Access.Serves.kept fun _ hk =>
    emitConstant_spec (by simp) ((hn.mono (Nat.le_succ n)).kept hk)).bind fun _ => ?_
  refine ((emit_binary_spec hn).pre fun s hs => ⟨binary_incrementOp k, hs⟩).bind fun _ => ?_
  exact write_spec hb hle

theorem parseStep_spec : Triple (fun s => Stands K A ps rs h s ∧ v.Serves s.context h) (parseStep v)
      fun _ => Stands K A ps rs (h + 1) := by
  refine serves_accept.bind fun up => ?_
  refine Triple.bind (Q := fun _ s => Stands K A ps rs h s ∧ v.Serves s.context h) ?_ fun changed => ?_
  · split
    · exact Triple.pure fun s hs => hs
    · exact serves_accept
  split
  · refine (read_spec hb (Nat.le_refl h)).bind fun _ => previous_spec.bind fun t => ?_
    refine ((emitChange_spec hb (Nat.le_succ h) t.kind).pre fun s hs => hs.2).bind fun _ => ?_
    exact emit_spec .pop rfl rfl rfl (hb.mono (Nat.le_succ h))
  · exact (read_spec hb (Nat.le_refl h)).post fun _ _ hs => hs.1

theorem parseChange_spec (hself : Meets self) :
    Triple (fun s => Stands K A ps rs h s ∧ v.Serves s.context h)
      (parseChange self v) fun _ => Stands K A ps rs (h + 1) := by
  have hb1 := hb.mono (Nat.le_succ h)
  refine serves_accept.bind fun assigned => ?_
  split
  · exact (hself.value_serves hb).bind fun _ => write_spec hb (Nat.le_refl h)
  refine (acceptCompound_spec serves_advance).bind fun compound => ?_
  cases compound with
  | some op =>
    refine ((read_spec hb (Nat.le_refl h)).frame.pre fun s hs => ⟨hs.1 op rfl, hs.2⟩).bind fun _ => ?_
    refine (hself.value_serves hb1).frame.bind fun _ => ?_
    exact (emit_binary_spec hb).bind fun _ => write_spec hb (Nat.le_refl h)
  | none => exact (parseStep_spec hb).pre fun s hs => hs.2

end

theorem parseVariable_spec (hself : Meets self) (name : String) (canAssign : Bool) :
    Yields (parseVariable self name canAssign) := by
  intro K A ps rs h hb
  refine (resolve_spec name hb).bind fun v => ?_
  split
  · exact parseChange_spec hb hself
  · exact parseStep_spec hb

theorem parseIncrement_spec : Yields parseIncrement := by
  intro K A ps rs h hb
  refine previous_spec.bind fun sign => ?_
  refine (expect_seen.pre fun s hs => hs.2).bind fun _ => previous_spec.bind fun name => ?_
  split
  · refine ((resolve_spec name.text hb).pre fun s hs => hs.2.2).bind fun v => ?_
    exact emitChange_spec hb (Nat.le_refl h) sign.kind
  · rename_i hkind
    refine Triple.pure ?_
    rintro s ⟨rfl, hs, -⟩
    simp [hs] at hkind

theorem parseOpening_spec (hself : Meets self) (o : Opening) (canAssign : Bool) :
    Yields (parseOpening self o canAssign) := by
  intro K A ps rs h hb
  refine previous_spec.bind fun t => ?_
  refine Triple.pre (P := Stands K A ps rs h) ?_ fun s hs => hs.2
  cases o with
  | grouping => exact (hself.expression (by decide) hb).bind fun _ => expect_spec
  | unary =>
    refine (hself.expression (by decide) hb).bind fun _ => ?_
    split
    · exact emit_spec .negate rfl rfl rfl hb
    · exact emit_spec .not rfl rfl rfl hb
  | increment => exact parseIncrement_spec hb
  | «variable» => exact parseVariable_spec hself t.text canAssign hb
  | string => exact emitConstant_spec (by simp) hb
  | number =>
    dsimp only
    split
    · exact emitConstant_spec (by simp) hb
    · exact complain_spec (fun _ hs => hs.calm) _
  | literal =>
    dsimp only
    split
    · exact emit_spec .pushTrue rfl rfl rfl hb
    split
    · exact emit_spec .pushFalse rfl rfl rfl hb
    · exact emit_spec .pushNul rfl rfl rfl hb
  | reserved => exact complain_spec (fun _ hs => hs.calm) _

/-! ## Operators -/

theorem emitCount_spec {count rest : Nat} (heffect : stackEffect op count = (rest + count, rest))
    (hop : op = .call ∨ op = .print) : Gathers count rest (emitWith op (UInt8.ofNat count)) := by
  intro K A ps rs h hb
  refine Triple.writes (emitWith_run _ _) ?_
  rintro s ⟨hcount, hs⟩
  have hbyte : (UInt8.ofNat count).toNat = count := UInt8.toNat_ofNat_of_lt' (Nat.lt_succ_of_le hcount)
  have heffect' : stackEffect op (UInt8.ofNat count).toNat = (rest + count, rest) := by
    rw [hbyte, heffect]
  have hrest : rest ≤ 1 := by simpa [heffect] using stackEffect_snd_le op count
  have hplain : op ≠ .closure ∧ op.width = 1 ∧ isJump op = false ∧
      s.context.Names op (UInt8.ofNat count).toNat (h + (rest + count)) := by
    rcases hop with rfl | rfl <;> exact ⟨nofun, rfl, rfl, trivial⟩
  obtain ⟨hne, hwidth, hjump, hnames⟩ := hplain
  have hd := hs.drafted
  rw [Nat.add_assoc] at hd
  exact hs.wrote
    (hd.emit _ hne hwidth.symm heffect' hnames hb.pos
    (.inr fun i hi _ => hs.not_flagged hb hi) hb.loops (fun _ => rfl) (.inr (by omega))
    (fun _ hx => hx) (fun _ hx => .inl hx) (by simp [hjump]))

theorem finishCall_spec (count : Nat) : Gathers count 1 (finishCall count) := fun hb =>
  expect_spec.frame.bind fun _ => emitCount_spec (by simp [stackEffect, Nat.add_comm]) (.inl rfl) hb

/-- One value more, and then those behind it. -/
theorem parseRow_gathers (hself : Meets self) {count rest : Nat} {l : Limit} {g : Goal}
    {finish : Comp Unit}
    (hagain : Gathers (count + 1) rest (self g)) (hfinish : Gathers (count + 1) rest finish) :
    Gathers count rest (parseRow self 255 l count g finish) := by
  intro K A ps rs h hb
  refine (hself.expression (by decide) (hb.mono (by omega))).frame.bind fun _ => ?_
  refine (complainIf_spec (fun s hs => hs.2.calm) _ _).bind fun _ => ?_
  refine Triple.bind (Q := fun _ s => count + 1 ≤ 255 ∧ Stands K A ps rs (h + rest + (count + 1)) s)
    ?_ fun more => ?_
  · refine accept_spec.frame.pre fun s hs => ⟨?_, hs.2.2⟩
    have : count ≠ 255 := by simpa using hs.1
    have := hs.2.1
    omega
  · split
    · exact hagain hb
    · exact hfinish hb

theorem parseArguments_spec (hself : Meets self) (count : Nat) :
    Gathers count 1 (parseArguments self count) :=
  parseRow_gathers hself hself.arguments (finishCall_spec _)

theorem binaryOp?_of_rank (hk : 1 ≤ (bindingPower k).rank) (hcall : k ≠ .leftParen)
    (het : k ≠ .et) (hou : k ≠ .ou) (hquestion : k ≠ .question) : binaryOp? k ≠ none := by
  cases k <;> simp_all [bindingPower, Precedence.rank, binaryOp?]

theorem parseOperator_spec (hself : Meets self) (hb : Context.Base K rs h)
    (hk : 1 ≤ (bindingPower k).rank) :
    Triple (fun s => s.previous.kind = k ∧ Stands K A ps rs (h + 1) s) (parseOperator self)
      fun _ => Stands K A ps rs (h + 1) := by
  have hb1 := hb.mono (Nat.le_succ h)
  refine previous_spec.bind fun t => ?_
  refine Triple.pre (P := fun s => t.kind = k ∧ Stands K A ps rs (h + 1) s) ?_ fun s hs =>
    ⟨hs.1 ▸ hs.2.1, hs.2.2⟩
  dsimp only
  split
  · refine (check_keeps.pre fun s hs => hs.2).bind fun closed => ?_
    split
    · exact (finishCall_spec 0 hb).pre fun s hs => ⟨by omega, hs⟩
    · exact (hself.arguments hb).pre fun s hs => ⟨by omega, hs⟩
  · refine ((emitJump_if_spec hb).pre fun s hs => hs.2).bind fun done => ?_
    refine (emit_spec .pop rfl rfl rfl hb).bind fun _ => ?_
    refine (hself.expression (by decide) hb).bind fun _ => ?_
    exact patchJump_head
  · refine ((emitJump_if_spec hb).pre fun s hs => hs.2).bind fun other => ?_
    refine (emitJump_spec hb1.pos hb1.loops).bind fun done => ?_
    refine (patchJump_second.pre fun s hs => hs (h + 1) (.inr (by omega))).bind fun _ => ?_
    refine (emit_spec .pop rfl rfl rfl hb).bind fun _ => ?_
    refine (hself.expression (by decide) hb).bind fun _ => ?_
    exact patchJump_head
  · refine ((emitJump_if_spec hb).pre fun s hs => hs.2).bind fun other => ?_
    refine (emit_spec .pop rfl rfl rfl hb).bind fun _ => ?_
    refine (hself.expression (by decide) hb).bind fun _ => ?_
    refine expect_spec.bind fun _ => (emitJump_spec hb1.pos hb1.loops).bind fun done => ?_
    refine (patchJump_second.pre fun s hs => hs (h + 1) (.inr (by omega))).bind fun _ => ?_
    refine (emit_spec .pop rfl rfl rfl hb).bind fun _ => ?_
    refine (hself.expression (by decide) hb).bind fun _ => ?_
    exact patchJump_head
  · rename_i hcall het hou hquestion
    have hnext : 1 ≤ (bindingPower t.kind).next.rank := by
      cases bindingPower t.kind <;> decide
    refine (hself.expression hnext hb1).frame.bind fun _ => ?_
    split
    · rename_i op hop
      have hop := binary_of_binaryOp? hop
      exact (emit_spec op hop.1 hop.2.1 hop.2.2 hb).pre fun s hs => hs.2
    · rename_i hop
      refine Triple.pure ?_
      rintro s ⟨rfl, hs⟩
      exact absurd hop (binaryOp?_of_rank hk hcall het hou hquestion)

theorem parseOperators_spec (hself : Meets self) {p : Precedence} (hp : 1 ≤ p.rank) (canAssign : Bool)
    (hb : Context.Base K rs h) :
    Triple (Stands K A ps rs (h + 1)) (parseOperators self p canAssign) fun _ =>
      Stands K A ps rs (h + 1) := by
  refine Triple.get.bind fun a => ?_
  split
  · rename_i hle
    have hk : 1 ≤ (bindingPower a.current.kind).rank := Nat.le_trans hp hle
    refine (advance_seen.pre fun s hs => ⟨congrArg (·.current.kind) hs.1.symm, hs.2⟩).bind fun _ => ?_
    exact (parseOperator_spec hself hb hk).bind fun _ => hself.operators hp hb
  · split
    · -- an assignment here has no name on its left side
      refine (accept_spec.pre fun s hs => hs.2).bind fun assigned => ?_
      have hrest : ∀ o : Option Op, Triple (Stands K A ps rs (h + 1))
          (if assigned || o.isSome then complain .badTarget else Pure.pure ())
          fun _ => Stands K A ps rs (h + 1) := by
        intro o
        split
        · exact complain_spec (fun s hs => hs.calm) _
        · exact Triple.pure fun s hs => hs
      dsimp only
      split
      · exact Triple.bind (Triple.pure fun s hs => hs) hrest
      · exact ((acceptCompound_spec advance_spec).post fun _ s hs => hs.2).bind hrest
    · exact Triple.pure fun s hs => hs.2

/-- An operand and the operators behind it. -/
theorem parseExpression_spec (hself : Meets self) {p : Precedence} (hp : 1 ≤ p.rank) :
    Yields (parseExpression self p) := by
  intro K A ps rs h hb
  refine advance_spec.bind fun _ => previous_spec.bind fun t => ?_
  cases opening? t.kind with
  | none => exact (complain_spec (fun s hs => hs.2.calm) _).post fun _ _ => False.elim
  | some o =>
    exact ((parseOpening_spec hself o _ hb).pre fun s hs => hs.2).bind fun _ => hself.operators hp hb

end Parlance.Comp
