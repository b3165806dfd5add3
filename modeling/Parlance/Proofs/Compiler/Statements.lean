/-
  Statements leave the frame as it was.
-/
import Parlance.Proofs.Compiler.Expressions
import Parlance.Proofs.Compiler.Functions

namespace Parlance.Comp

open Compilation

variable {c : Clauses} {self : Recur} {K : Context} {A : List Context} {ps : List Jump}
  {rs : List Loop} {h : Nat}

/-! ## Simple statements -/

theorem finishPrint_spec (count : Nat) : Gathers count 0 (finishPrint count) := fun hb =>
  expect_spec.frame.bind fun _ => emitCount_spec (by simp [stackEffect]) (.inr rfl) hb

theorem parsePrinted_spec (hself : Meets self) (count : Nat) :
    Gathers count 0 (parsePrinted self count) :=
  parseRow_gathers hself hself.printed (finishPrint_spec _)

theorem parsePrint_spec (hself : Meets self) : Balances (parsePrint self) := by
  intro K A ps rs h hk
  refine check_keeps.bind fun closed => ?_
  split
  · exact (finishPrint_spec 0 hk.base).pre fun s hs => ⟨by omega, hs⟩
  · exact (hself.printed hk.base).pre fun s hs => ⟨by omega, hs⟩

theorem parseExpressionStatement_spec (hself : Meets self) :
    Balances (parseExpressionStatement self) := fun hk =>
  (hself.expression (by decide) hk.base).bind fun _ => expect_spec.bind fun _ =>
    emit_spec .pop rfl rfl rfl hk.base

theorem parseReturn_spec (hself : Meets self) : Balances (parseReturn self) := by
  intro K A ps rs h hk
  refine Triple.get.bind fun a => (complainIf_spec (fun s hs => hs.2.calm) _ _).bind fun _ => ?_
  refine (accept_spec.pre fun s hs => hs.2.2).bind fun bare => ?_
  split
  · exact (emitReturn_spec hk.base).post fun _ s hs => hs h hk.le_512
  · refine (hself.expression (by decide) hk.base).bind fun _ => expect_spec.bind fun _ => ?_
    exact (emit_return_spec hk.base).post fun _ s hs => hs h hk.le_512

/-! ## Jumps out of a body -/

theorem addExit_spec {isLoop : Bool} {count target : Nat} {bs : List (Bool × Nat × Nat)} {p : Nat}
    (hb : K.outline.breakables = (isLoop, count, target) :: bs) :
    Triple (Stands K A (⟨p, count, count⟩ :: ps) rs h) (modifyContext (·.addExit p))
      fun _ => Stands K A ps rs h := by
  refine Triple.modify fun s hc => ⟨hc, fun hs => ?_⟩
  have hbreakables := congrArg Context.Outline.breakables hs.kept.outline_eq
  rw [hb] at hbreakables
  cases hcons : s.context.breakables with
  | nil => simp [Context.outline, hcons] at hbreakables
  | cons b' bs' =>
    have hcount : b'.localCount = count := by
      simp only [Context.outline, hcons, List.map_cons, List.cons.injEq, Prod.mk.injEq] at hbreakables
      exact hbreakables.1.2.1
    dsimp only [Context.addExit]
    rw [hcons]
    refine hs.context ⟨?_, hs.kept.constants, hs.kept.captures⟩ rfl
      ⟨hs.chain.1.locals_le, hs.chain.1.captures_le, hs.chain.1.ready⟩ ?_
    · rw [← hs.kept.outline_eq]
      simp [Context.outline, hcons]
    · obtain ⟨t, ht⟩ := hs.drafted
      refine ⟨t, ht.congr_pending fun x => ?_⟩
      simp only [Context.sketch, Context.exits, hcons, List.flatMap_cons, hcount, List.mem_append,
        List.mem_cons, Array.toList_push, List.map_append, List.map_cons, List.map_nil,
        List.not_mem_nil, or_false]
      tauto

/-- A jump out of a body takes the variables of the body along. -/
theorem leave_spec {isLoop : Bool} {count target : Nat} {bs : List (Bool × Nat × Nat)}
    (hk : K.Settled ps rs h) (hb : K.outline.breakables = (isLoop, count, target) :: bs) :
    Triple (Stands K A ps rs h) (do
        discardLocals count
        let jump ← emitJump .jump
        modifyContext (·.addExit jump))
      fun _ => Stands K A ps rs h := by
  obtain ⟨hpos, hle⟩ := hk.counts (isLoop, count, target) (hb ▸ List.mem_cons_self)
  have hloops := (hb ▸ hk.nest).height_le
  refine (discardLocals_spec hk hpos hle hloops).bind fun _ => ?_
  exact ((emitJump_spec hpos hloops).post fun _ s hs => hs h (.inl hk.le_512)).bind fun _ =>
    addExit_spec hb

theorem parseBreak_spec : Balances parseBreak := by
  intro K A ps rs h hk
  refine Triple.get.bind fun a => ?_
  split
  · refine (complain_spec (fun s hs => hs.2.calm) _).bind (Q := fun _ _ => False) fun _ => ?_
    exact Triple.never fun _ hs => hs
  rename_i b bs hcons
  refine Triple.bind (Q := fun _ s => (∃ bs', K.outline.breakables =
    (b.isLoop, b.localCount, b.continueTarget) :: bs') ∧ Stands K A ps rs h s) ?_ fun _ => ?_
  · refine expect_spec.frame.pre ?_
    rintro s ⟨rfl, hs⟩
    refine ⟨?_, hs⟩
    rw [← hs.kept.outline_eq]
    simp [Context.outline, hcons]
  · exact Triple.given fun hb => hb.elim fun bs' hb => leave_spec hk hb

theorem parseContinue_spec : Balances parseContinue := by
  intro K A ps rs h hk
  refine Triple.get.bind fun a => ?_
  split
  · refine (complain_spec (fun s hs => hs.2.calm) _).bind (Q := fun _ _ => False) fun _ => ?_
    exact Triple.never fun _ hs => hs
  rename_i b hfind
  refine Triple.bind (Q := fun _ s => K.outline.breakables.find? (·.1) =
    some (b.isLoop, b.localCount, b.continueTarget) ∧ Stands K A ps rs h s) ?_ fun _ => ?_
  · refine expect_spec.frame.pre ?_
    rintro s ⟨rfl, hs⟩
    refine ⟨?_, hs⟩
    rw [← hs.kept.outline_eq]
    simp only [Context.outline, List.find?_map, Function.comp_def, hfind, Option.map_some]
  · refine Triple.given fun hfind => ?_
    obtain ⟨r, rs', rfl, hr, ht, hloops⟩ := hk.nest.innermost hfind
    obtain ⟨hpos, hle⟩ := hk.counts _ (List.mem_of_find?_eq_some hfind)
    refine (discardLocals_spec hk hpos hle ?_).bind fun _ => ?_
    · exact List.forall_mem_cons.2 ⟨Nat.le_of_eq hr, hloops⟩
    · exact (emitLoop_spec hpos hr ht).post fun _ s hs => hs h hk.le_512

/-! ## Conditions and loops -/

/-- A condition that does not hold is still on the stack where its jump leads. -/
theorem parseCondition_spec (hself : Meets self) (hb : Context.Base K rs h) (opening : Missing) :
    Triple (Stands K A ps rs h) (parseCondition self opening) fun other =>
      Stands K A (⟨other, h + 1, h⟩ :: ps) rs h := by
  refine expect_spec.bind fun _ => (hself.expression (by decide) hb).bind fun _ =>
    expect_spec.bind fun _ => ?_
  refine (emitJump_if_spec hb).bind fun other => (emit_spec .pop rfl rfl rfl hb).bind fun _ => ?_
  exact Triple.pure fun s hs => hs

theorem parseElse_spec (hself : Meets self) (hk : K.Settled ps rs h) (done : Nat) :
    Triple (Stands K A (⟨done, h, h⟩ :: ps) rs h) (parseElse self done) fun _ =>
      Stands K A ps rs h := by
  refine accept_spec.bind fun more => ?_
  split
  · exact (hself.statement (hk.jump (Nat.le_refl h))).bind fun _ => patchJump_head
  · exact patchJump_head

theorem parseIf_spec (hself : Meets self) : Balances (parseIf self) := by
  intro K A ps rs h hk
  have hb := hk.base
  refine (parseCondition_spec hself hb _).bind fun other => ?_
  refine (hself.statement (hk.jump (Nat.le_refl h))).bind fun _ => ?_
  refine (emitJump_spec hb.pos hb.loops).bind fun done => ?_
  refine Triple.bind ?_ fun _ => parseElse_spec hself hk done
  refine (patchJump_second.pre fun s hs => hs (h + 1) (.inr (Nat.le_refl _))).bind fun _ => ?_
  exact emit_spec .pop rfl rfl rfl hb

theorem parseInitializer_spec (hself : Meets self) (hb : Context.Base K rs h) :
    Triple (Stands K A ps rs h) (parseInitializer self) fun _ => Stands K A ps rs (h + 1) := by
  refine accept_spec.bind fun assigned => ?_
  split
  · exact hself.expression (by decide) hb
  · exact emit_spec .pushNul rfl rfl rfl hb

theorem parseVariableDeclaration_spec (hself : Meets self) :
    Introduces (parseVariableDeclaration self) := by
  intro K A ps rs h hk
  refine (declareName_spec _).bind fun i => Triple.ex fun name => ?_
  have hb := hk.announce name
  have hkept : ∀ {c c' : Context}, c.Kept c' → K.Titled i c.chunk → K.Titled i c'.chunk :=
    Context.Titled.kept
  refine (Triple.along hkept fun _ hc => parseInitializer_spec hself (hb.kept hc)).bind fun _ => ?_
  refine (Triple.along hkept fun _ _ => expect_spec).bind fun _ => ?_
  exact defineVariable_declared (Context.announce_depth K name) rfl fun _ => hb

theorem openLoop_spec (hloops : ∀ r ∈ rs, r.height ≤ h) : Triple (Stands K A ps rs h) codeSize
      fun start => Stands K A ps (⟨start, h, [start]⟩ :: rs) h := by
  refine codeSize_spec.post ?_
  rintro start s ⟨rfl, hs⟩
  exact hs.openLoop hloops

/-- A loop over `h` values that may go on from `next`. -/
structure Resumable (h next : Nat) extends Loop where
  height_eq : height = h
  mem_entries : next ∈ entries

instance nonempty_resumable (h next : Nat) : Nonempty (Resumable h next) :=
  ⟨⟨⟨0, h, [next]⟩, rfl, List.mem_cons_self⟩⟩

/-- Behind a loop its condition has been dropped, however it was left. -/
theorem parseLoop_spec (hself : Meets self) (hk : K.Settled ps rs h) {next : Nat}
    (r : Resumable h next) (exit? : Option Nat) :
    Triple (Stands K A ((exit?.map (⟨·, h + 1, h⟩)).toList ++ ps) (r.toLoop :: rs) h)
    (parseLoop self next exit?)
      fun _ => Stands K A ps rs h := by
  have hloop := hk.loop r.height_eq r.mem_entries
  refine (beginBreakable_spec true next).bind fun _ => ?_
  refine (hself.statement (hloop.jumps exit? _)).bind fun _ => ?_
  refine (emitLoop_spec hk.pos r.height_eq r.mem_entries).bind fun _ => ?_
  have hend : Triple (Stands (K.enclose true next) A ps (r.toLoop :: rs) h) endBreakable fun _ =>
    Stands K A ps rs h :=
    (endBreakable_spec hk.height).post fun _ s hs => hs.closeLoop (Nat.le_of_eq r.height_eq)
  cases exit? with
  | none => exact Triple.bind (Triple.pure fun s hs => hs _ hk.le_512) fun _ => hend
  | some p =>
    refine Triple.bind ?_ fun _ => hend
    refine (patchJump_head.pre fun s hs => hs _ hk.succ_le_512).bind fun _ => ?_
    exact emit_spec .pop rfl rfl rfl hloop.base

/-- A loop comes back to the height at which it began. -/
theorem parseWhile_spec (hself : Meets self) : Balances (parseWhile self) := by
  intro K A ps rs h hk
  refine (openLoop_spec hk.base.loops).bind fun start => ?_
  let r : Resumable h start := ⟨⟨start, h, [start]⟩, rfl, List.mem_cons_self⟩
  have hb : Context.Base K (r.toLoop :: rs) h :=
    ⟨hk.pos, hk.base.free, List.forall_mem_cons.2 ⟨Nat.le_refl h, hk.base.loops⟩⟩
  exact (parseCondition_spec hself hb _).bind fun exit => parseLoop_spec hself hk r (some exit)

/-- The condition of a loop leaves the height as it is; the jump out of the loop carries one value
more. -/
theorem parseForCondition_spec (hself : Meets self) (hb : Context.Base K rs h) :
    Triple (Stands K A ps rs h) (parseForCondition self)
      fun exit => Stands K A ((exit.map (⟨·, h + 1, h⟩)).toList ++ ps) rs h := by
  refine accept_spec.bind fun none => ?_
  split
  · exact Triple.pure fun s hs => hs
  · refine (hself.expression (by decide) hb).bind fun _ => expect_spec.bind fun _ =>
      (emitJump_if_spec hb).bind fun exit => ?_
    exact (emit_spec .pop rfl rfl rfl hb).bind fun _ => Triple.pure fun s hs => hs

theorem parseForIncrement_spec (hself : Meets self) (hb : Context.Base K rs h)
    (hsmall : h ≤ 512) {r : Loop} {start : Nat} (hr : r.height = h) (ht : start ∈ r.entries) :
    Triple (Stands K A ps (r :: rs) h) (parseForIncrement self start) fun next s =>
      ∃ r' : Resumable h next, Stands K A ps (r'.toLoop :: rs) h s := by
  refine accept_spec.bind fun none => ?_
  split
  · exact Triple.pure fun s hs => ⟨⟨r, hr, ht⟩, hs⟩
  have hb' : ∀ es, Context.Base K ({ r with entries := es } :: rs) h := fun es =>
    ⟨hb.pos, hb.free, List.forall_mem_cons.2 ⟨Nat.le_of_eq hr, hb.loops⟩⟩
  refine ((emitJump_spec hb.pos (hb' r.entries).loops).post fun _ s hs => hs h (.inl hsmall)).bind
    fun body => ?_
  refine Triple.bind (Q := fun next => Stands K A (⟨body, h, h⟩ :: ps)
    ({ r with entries := next :: r.entries } :: rs) h) ?_ fun next => ?_
  · refine codeSize_spec.post ?_
    rintro next s ⟨rfl, hs⟩
    exact hs.addEntry hr
  refine (hself.expression (by decide) (hb' _)).bind fun _ =>
    (emit_spec .pop rfl rfl rfl (hb' _)).bind fun _ => ?_
  refine expect_spec.bind fun _ =>
    ((emitLoop_spec (r := { r with entries := next :: r.entries }) hb.pos hr
      (List.mem_cons_of_mem _ ht)).post fun _ s hs => hs h hsmall).bind fun _ => ?_
  refine patchJump_head.bind fun _ => Triple.pure fun s hs => ?_
  exact ⟨⟨{ r with entries := next :: r.entries }, hr, List.mem_cons_self⟩, hs⟩

theorem parseForStart_spec (hself : Meets self) (hk : K.Settled ps rs h) :
    Triple (Stands K.deepen A ps rs h) (parseForStart self) fun _ s =>
      ∃ ls : K.deepen.Fresh, Stands (K.deepen.declare ls.toList) A ps rs (h + ls.toList.length) s := by
  refine expect_spec.bind fun _ => accept_spec.bind fun none => ?_
  split
  · exact Triple.pure fun s hs => hs.declared_nil
  refine accept_spec.bind fun declares => ?_
  split
  · exact parseVariableDeclaration_spec hself hk.deepen
  · exact (parseExpressionStatement_spec hself hk.deepen).post fun _ s hs => hs.declared_nil

theorem parseFor_spec (hself : Meets self) : Balances (parseFor self) := by
  intro K A ps rs h hk
  refine beginScope_spec.bind fun _ => (parseForStart_spec hself hk).bind fun _ =>
    Triple.ex fun ls => ?_
  have hk' := hk.deepen.declare ls
  have hb := hk'.base
  refine (openLoop_spec hb.loops).bind fun start => ?_
  have hb' : Context.Base _ (⟨start, h + ls.toList.length, [start]⟩ :: rs) _ :=
    ⟨hb.pos, hb.free, List.forall_mem_cons.2 ⟨Nat.le_refl _, hb.loops⟩⟩
  refine (parseForCondition_spec hself hb').bind fun exit? => ?_
  refine (parseForIncrement_spec hself hb hk'.le_512 rfl List.mem_cons_self).bind fun next =>
    Triple.ex fun r => ?_
  exact (parseLoop_spec hself hk' r exit?).bind fun _ => endScope_spec hk ls

/-! ## Choices -/

theorem patchJump?_spec (p : Option Nat) :
    Triple (Stands K A ((p.map (⟨·, h, h⟩)).toList ++ ps) rs h) (patchJump? p)
      fun _ => Stands K A ps rs h := by
  cases p with
  | none => exact Triple.pure fun s hs => hs
  | some p => exact patchJump_head

theorem patchSkip_spec (hk : K.Settled ps rs h) (c : Clauses) :
    Triple (AtClause K A ps rs h c) (patchSkip c.skip?)
      fun _ => Stands K A ((c.fall?.map (⟨·, h, h⟩)).toList ++ ps) rs h := by
  obtain ⟨slot, skip, fall, sawDefault⟩ := c
  cases skip with
  | none => exact Triple.pure fun s hs => hs.2.2 h hk.le_512 fun _ => rfl
  | some p =>
    refine ((patchJump_head (b := h)).pre ?_).bind fun _ => emit_spec .pop rfl rfl rfl hk.base
    rintro s ⟨-, hfall, hs⟩
    exact hs (h + 1) hk.succ_le_512 fun hnone => by cases hfall hnone

/-- The body of a clause stands in a scope of its own; behind it control goes on in the next
body. -/
theorem parseBody_spec (hself : Meets self) (hk : K.Settled ps rs h) (c : Clauses) :
    Triple (fun s => c.slot.toNat < h ∧
      Stands K.deepen A ((c.skip?.map (⟨·, h + 1, h⟩)).toList ++ ps) rs h s)
      (parseBody self c) fun _ => Stands K A ps rs h := by
  have hk' := hk.jumps c.skip? (h + 1)
  refine Triple.bind (Q := fun _ s => ∃ ls : K.deepen.Fresh, c.slot.toNat < h ∧
    Stands (K.deepen.declare ls.toList) A ((c.skip?.map (⟨·, h + 1, h⟩)).toList ++ ps) rs
      (h + ls.toList.length) s) ?_ fun _ => Triple.ex fun ls => ?_
  · refine (hself.caseBody hk'.deepen).frame.post ?_
    rintro _ s ⟨hslot, ls, hs⟩
    exact ⟨ls, hslot, hs⟩
  refine (endScope_spec hk' ls).frame.bind fun _ => ?_
  refine (emitJump_spec hk.pos hk.base.loops).frame.bind fun fall => (hself.clauses hk).pre ?_
  rintro s ⟨hslot, hs⟩
  refine ⟨hslot, by simp, fun h' hh' _ => (hs h' (.inl hh')).congr fun x => ?_⟩
  simp [Clauses.jumps, or_left_comm]

theorem AtClause.calm (hk : K.Settled ps rs h) {s : Compilation}
    (hs : AtClause K A ps rs h c s) : s.panicking = false :=
  (hs.2.2 h hk.le_512 fun _ => rfl).calm

theorem AtClause.move {α : Type} {x : Comp α} (hk : K.Settled ps rs h)
    (hx : ∀ {h'}, Triple (Stands K A (c.jumps h ++ ps) rs h') x fun _ =>
      Stands K A (c.jumps h ++ ps) rs h') :
    Triple (AtClause K A ps rs h c) x fun _ => AtClause K A ps rs h c := by
  intro s hP hs
  have hc : s.Clean := (hx s (fun hc => (hP hc).2.2 h hk.le_512 fun _ => rfl) hs).1
  obtain ⟨hslot, hfall, hstands⟩ := hP hc
  exact ⟨hc, hslot, hfall, fun h' hh' hf => (hx s (fun _ => hstands h' hh' hf) hs).2⟩

theorem parseTest_spec (hself : Meets self) (hb : Context.Base K rs h) (c : Clauses) :
    Triple (fun s => c.slot.toNat < h ∧ Stands K A ps rs h s) (parseTest self c)
      fun skip? s => c.slot.toNat < h ∧
        Stands K A ((skip?.map (⟨·, h + 1, h⟩)).toList ++ ps) rs h s := by
  refine Triple.bind (Q := fun _ s => c.slot.toNat < h ∧ Stands K A ps rs (h + 1) s) ?_ fun _ => ?_
  · refine Triple.frame ?_ |>.pre fun s hs => ⟨hs.1, hs⟩
    exact (emitWith_spec .getLocal rfl rfl (by decide) hb).pre fun s hs => ⟨hs.2, hs.1⟩
  refine (hself.expression (by decide) (hb.mono (Nat.le_succ h))).frame.bind fun _ =>
    expect_spec.frame.bind fun _ => ?_
  refine (emit_spec .equal rfl rfl rfl hb).frame.bind fun _ => ?_
  refine (emitJump_if_spec hb).frame.bind fun skip => ?_
  exact (emit_spec .pop rfl rfl rfl hb).frame.bind fun _ => Triple.pure fun s hs => hs

/-- A clause is entered past the comparison of the one before, or from its body. -/
theorem openClause_spec (hk : K.Settled ps rs h) {before : Comp Unit} {test : Comp (Option Nat)}
    (sawDefault : Bool) (hbefore : Triple (AtClause K A ps rs h c) before fun _ =>
      AtClause K A ps rs h c)
    (htest : ∀ {ps}, Triple (fun s => c.slot.toNat < h ∧ Stands K A ps rs h s) test fun skip? s =>
      c.slot.toNat < h ∧ Stands K A ((skip?.map (⟨·, h + 1, h⟩)).toList ++ ps) rs h s) :
    Triple (AtClause K A ps rs h c) (openClause c before test sawDefault) fun c' s =>
      c'.slot.toNat < h ∧
      Stands K.deepen A ((c'.skip?.map (⟨·, h + 1, h⟩)).toList ++ ps) rs h s := by
  refine hbefore.bind fun _ => ?_
  refine (((patchSkip_spec hk c).frame (φ := c.slot.toNat < h)).pre fun s hs => ⟨hs.1, hs⟩).bind
    fun _ => ?_
  refine htest.bind fun skip? => ?_
  refine Triple.bind (Q := fun _ s => c.slot.toNat < h ∧
    Stands K A ((skip?.map (⟨·, h + 1, h⟩)).toList ++ ps) rs h s) ?_ fun _ => ?_
  · refine (patchJump?_spec c.fall?).frame.pre fun s hs => ⟨hs.1, hs.2.congr fun x => ?_⟩
    simp only [List.mem_append, or_left_comm]
  · exact beginScope_spec.frame.bind fun _ => Triple.pure fun s hs => hs

theorem parseCase_spec (hself : Meets self) (hk : K.Settled ps rs h) (c : Clauses) :
    Triple (AtClause K A ps rs h c) (parseCase self c) fun _ => Stands K A ps rs h := by
  refine (openClause_spec hk c.sawDefault ?_ (parseTest_spec hself hk.base c)).bind fun c' =>
    parseBody_spec hself hk c'
  exact (complainIf_spec (fun s hs => hs.calm hk) _ _).post fun _ s hs => hs.2

theorem parseDefault_spec (hself : Meets self) (hk : K.Settled ps rs h) (c : Clauses) :
    Triple (AtClause K A ps rs h c) (parseDefault self c) fun _ => Stands K A ps rs h := by
  have htest : ∀ {ps}, Triple (fun s => c.slot.toNat < h ∧ Stands K A ps rs h s) (pure none)
    fun skip? s =>
      c.slot.toNat < h ∧ Stands K A ((skip?.map (⟨·, h + 1, h⟩)).toList ++ ps) rs h s :=
        Triple.pure fun s hs => hs
  refine (openClause_spec hk true ?_ htest).bind fun c' => parseBody_spec hself hk c'
  exact (complainIf_spec (fun s hs => hs.calm hk) _ _).bind fun _ =>
    (AtClause.move hk expect_spec).pre fun s hs => hs.2

/-- Control comes to a clause from the clause before it only. -/
theorem parseClauses_spec (hself : Meets self) (hk : K.Settled ps rs h) :
    Triple (AtClause K A ps rs h c) (parseClauses self c) fun _ => Stands K A ps rs h := by
  refine check_keeps.bind fun closed => check_keeps.bind fun ended => ?_
  split
  · exact (patchSkip_spec hk c).bind fun _ => patchJump?_spec c.fall?
  refine (AtClause.move hk accept_spec).bind fun isCase => ?_
  split
  · exact parseCase_spec hself hk c
  refine (AtClause.move hk accept_spec).bind fun isDefault => ?_
  split
  · exact parseDefault_spec hself hk c
  refine (complainHere_spec (fun s hs => hs.calm hk) _).bind (Q := fun _ _ => False) fun _ => ?_
  refine Triple.bind (Q := fun _ _ => False) ?_ fun _ => ?_
  · exact Triple.never fun _ hs => hs
  · exact Triple.absurd (P := AtClause K A ps rs h c) (hself.clauses hk) fun _ hs => hs

theorem switchSlot_spec (hk : K.Settled ps rs h) (name : String) :
    Triple (Stands (K.deepen.push name) A ps rs (h + 1)) markReady fun _ s =>
      ∃ ls : K.deepen.Fresh, (UInt8.ofNat (s.context.locals.size - 1)).toNat < h + ls.toList.length ∧
        Stands (K.deepen.declare ls.toList) A ps rs (h + ls.toList.length) s := by
  have hdepth : 0 < K.deepen.depth := Nat.succ_pos _
  refine markReady_spec.post fun _ s hs => ?_
  have hs : Stands (K.deepen.announce name).settle A ps rs
      (if 0 < K.deepen.depth then h + 1 else h) s := by
    rw [if_pos hdepth, Context.announce, if_pos hdepth]
    exact hs
  obtain ⟨ls, hs⟩ := hs.declared
  refine ⟨ls, ?_, hs⟩
  have hsize : s.context.locals.size = h + ls.toList.length :=
    hs.locals_size.trans (hk.deepen.declare ls).height.symm
  have hle := hs.chain.1.locals_le
  have hpos := hk.pos
  rw [UInt8.toNat_ofNat_of_lt'
    (show s.context.locals.size - 1 < 256 by simp only [maxLocals] at hle; omega)]
  omega

theorem parseChoices_spec (hself : Meets self) (hk : K.Settled ps rs h) :
    Triple (fun s => (UInt8.ofNat (s.context.locals.size - 1)).toNat < h ∧ Stands K A ps rs h s)
    (parseChoices self)
      fun _ => Stands K A ps rs h := by
  refine Triple.get.bind fun a => ?_
  refine Triple.bind (Q := fun _ s => (UInt8.ofNat (a.context.locals.size - 1)).toNat < h ∧
    Stands (K.enclose false 0) A ps rs h s) ?_ fun _ => ?_
  · refine (beginBreakable_spec false 0).frame.pre ?_
    rintro s ⟨rfl, hs⟩
    exact hs
  refine ((hself.clauses (A := A) (hk.choice 0)).pre ?_).bind fun _ => ?_
  · rintro s ⟨hslot, hs⟩
    refine ⟨hslot, fun _ => rfl, fun h' _ hh' => ?_⟩
    rw [hh' rfl]
    exact hs
  exact (endBreakable_spec hk.height).bind fun _ => expect_spec

theorem parseSwitch_spec (hself : Meets self) : Balances (parseSwitch self) := by
  intro K A ps rs h hk
  have hchosen : Triple (Stands K A ps rs h) (parseChosen self) fun _ => Stands K A ps rs (h + 1) :=
    expect_spec.bind fun _ => (hself.expression (by decide) hk.base).bind fun _ =>
      expect_spec.bind fun _ => expect_spec
  refine hchosen.bind fun _ => beginScope_spec.bind fun _ => (addLocal_spec _).bind fun _ => ?_
  refine (switchSlot_spec hk _).bind fun _ => Triple.ex fun ls => ?_
  exact (parseChoices_spec hself (hk.deepen.declare ls)).bind fun _ => endScope_spec hk ls

/-! ## Sentences -/

theorem markReady_still : Still markReady := by
  refine Still.bind (fun _ => rfl) fun s => ?_
  split <;> exact fun _ => rfl

theorem parseFunctionDeclaration_spec (hself : Meets self) :
    Introduces (parseFunctionDeclaration self) := by
  intro K A ps rs h hk
  refine (declareName_spec _).bind fun i => Triple.ex fun name => ?_
  refine Triple.bind (Q := fun _ s => Stands (K.announce name).settle A ps rs h s ∧
    K.Titled i s.context.chunk) ?_ fun _ => ?_
  · exact (markReady_spec.still (R := K.Titled i) markReady_still).conseq (fun s hs => hs.symm)
      fun _ s hs => hs.symm
  have hsize : (K.announce name).settle.locals.size ≤ h + 1 := by
    rw [Context.settle_announce, hk.height]
    split <;> simp [Context.declare]
  have hdepth : (K.announce name).settle.depth = K.depth := by
    rw [Context.settle_announce]
    rfl
  have hkept : ∀ {c c' : Context}, c.Kept c' → K.Titled i c.chunk → K.Titled i c'.chunk :=
    Context.Titled.kept
  refine (Triple.along hkept fun K' hK' => parseFunction_spec hself hk.pos ?_ hk.base.loops).bind
    fun _ => defineVariable_declared hdepth (K.settle_settle name) fun hzero => ?_
  · exact hK'.locals_size ▸ hsize
  · rw [Context.settle_announce, if_neg (by omega), Context.declare_nil]
    exact hk.base

theorem advance_then {α : Type} {x : Comp α} {Q : α → Compilation → Prop}
    (hx : Triple (Stands K A ps rs h) x Q) :
    Triple (Stands K A ps rs h) (do advance; x) Q := advance_spec.bind fun _ => hx

section

variable (hself : Meets self)
include hself

theorem parseStatement_spec : Balances (parseStatement self) := by
  intro K A ps rs h hk
  refine (Triple.get.post fun _ _ hs => hs.2).bind fun a => ?_
  split
  · exact advance_then (parsePrint_spec hself hk)
  · exact advance_then (parseIf_spec hself hk)
  · exact advance_then (parseWhile_spec hself hk)
  · exact advance_then (parseFor_spec hself hk)
  · exact advance_then (parseSwitch_spec hself hk)
  · exact advance_then (parseReturn_spec hself hk)
  · exact advance_then (parseBreak_spec hk)
  · exact advance_then (parseContinue_spec hk)
  · exact advance_then (complain_spec (fun s hs => hs.calm) _)
  · refine advance_then (beginScope_spec.bind fun _ => ?_)
    exact (hself.block hk.deepen).bind fun _ => Triple.ex fun ls => endScope_spec hk ls
  · exact parseExpressionStatement_spec hself hk

/-- Variables and functions come to stand on the frame, and other statements leave it as it was. -/
theorem parseSentence_spec : Introduces (parseSentence self) := by
  intro K A ps rs h hk
  refine (Triple.get.post fun _ _ hs => hs.2).bind fun a => ?_
  split
  · exact advance_then (parseFunctionDeclaration_spec hself hk)
  · exact advance_then (parseVariableDeclaration_spec hself hk)
  · exact (hself.statement hk).post fun _ s hs => hs.declared_nil

theorem parseDeclaration_spec : Introduces (parseDeclaration self) := by
  intro K A ps rs h hk
  refine (parseSentence_spec hself hk).bind fun _ => Triple.get.bind fun a => ?_
  split
  · rename_i hpanic
    refine Triple.never ?_
    rintro s ⟨rfl, ls, hstands⟩
    simp [hstands.calm] at hpanic
  · exact Triple.pure fun s hs => hs.2

theorem declaration_then {x : Comp Unit} (hx : Introduces x) :
    Introduces (do self .declaration; x) := by
  intro K A ps rs h hk
  refine (hself.declaration hk).bind fun _ => Triple.ex fun ls => (hx (hk.declare ls)).post ?_
  rintro _ s ⟨ls', hs⟩
  refine ⟨ls.append ls', ?_⟩
  rwa [Context.declare_append, Nat.add_assoc, ← List.length_append] at hs

theorem parseBlock_spec : Introduces (parseBlock self) := by
  intro K A ps rs h hk
  refine check_keeps.bind fun closed => check_keeps.bind fun ended => ?_
  split
  · exact expect_spec.post fun _ s hs => hs.declared_nil
  · exact declaration_then hself hself.block hk

theorem parseCaseBody_spec : Introduces (parseCaseBody self) := by
  intro K A ps rs h hk
  refine (Triple.get.post fun _ _ hs => hs.2).bind fun a => ?_
  split
  · exact Triple.pure fun s hs => hs.declared_nil
  · exact Triple.pure fun s hs => hs.declared_nil
  · exact Triple.pure fun s hs => hs.declared_nil
  · exact Triple.pure fun s hs => hs.declared_nil
  · exact declaration_then hself hself.caseBody hk

theorem parseProgram_spec : Introduces (parseProgram self) := by
  intro K A ps rs h hk
  refine accept_spec.bind fun ended => ?_
  split
  · exact Triple.pure fun s hs => hs.declared_nil
  · exact declaration_then hself hself.program hk

end

end Parlance.Comp
