/-
  Functions under way only grow.
-/
import Parlance.Proofs.Compiler.Laws
import Parlance.Proofs.Compiler.Rounds

namespace Parlance

variable {s : Compilation}

namespace Compilation

instance spreads_preorder : IsPreorder Compilation Spreads where
  refl := .refl
  trans _ _ _ := forall₂_le_trans

theorem spreads_of_code {s s' : Compilation} (h : s'.code = s.code) : s.Spreads s' := by
  have hcontext : s'.context = s.context := congrArg (·.1) h
  have haround : s'.around = s.around := congrArg (·.2.1) h
  rw [Spreads, shapes, shapes, hcontext, haround]
  exact List.forall₂_same.2 fun _ _ => le_rfl

instance heard_spreads : Heard (Shared Spreads) :=
  Comp.heard_of (fun s t c => spreads_of_code (code_complainAt s t c))
  (fun _ _ h => spreads_context h.shape)
  (fun s name => by
    have hshapes :=
      capture_eq Context.shape_addCapture Context.shape_markCaptured name s.context s.around
    unfold Spreads shapes
    rw [hshapes.1, hshapes.2]
    exact List.forall₂_same.2 fun _ _ => le_rfl)
  (fun _ _ _ h => spreads_context h.shape_eq.ge) (fun s _ => spreads_of_code (code_advance s))
  fun s _ => spreads_of_code ((code_complainAt _ _ _).trans (code_advance s))

instance onward_spreads : Onward (Shared Spreads) :=
  { (inferInstance : Heard (Shared Spreads)) with
    advance := fun h => ⟨by rw [h.1], forall₂_le_trans h.2 (spreads_of_code (code_advance _))⟩
    calm := fun h => ⟨by rw [h.1], h.2⟩ }

/-! Constants and parameters do not show in the shape of a function. -/

instance spreads_addConstant (k : Constant) :
    Comp.Obeys Spreads (Comp.modifyContext fun c => { c with chunk := c.chunk.addConstant k }) :=
  Comp.obeys_of fun _ => spreads_context le_rfl

instance spreads_countParameter :
    Comp.Obeys Spreads (Comp.modifyContext fun c => { c with arity := c.arity + 1 }) :=
  Comp.obeys_of fun _ => spreads_context le_rfl

theorem Sober.complain (hs : s.Sober) (t : Token) (c : Complaint) : ¬ (s.complainAt t c).Clean :=
  fun h =>
  have hclean := complainAt_clean h
  nomatch (hs hclean.1).symm.trans hclean.2

theorem Spreads.shapes {s t : Compilation} (h : s.Spreads t) (ps : List Bracket) :
    List.Forall₂ (· ≤ ·) (s.shapes ps) (t.shapes ps) := by
  cases h with
  | cons hcontext haround => exact .cons (Shape.close_mono ps hcontext) haround

theorem Spreads.context {s t : Compilation} (h : s.Spreads t) : s.context.shape ≤ t.context.shape := by
  cases h with
  | cons hcontext _ => exact hcontext

/-- The innermost loop or choice is left. -/
def leaveBreakable (s : Compilation) : Compilation :=
  { s with context := { s.context with breakables := s.context.breakables.tail } }

theorem shape_leaveBreakable (s : Compilation) :
    s.leaveBreakable.context.shape = s.context.shape.endBreakable := by
  simp only [leaveBreakable, Context.shape, Shape.endBreakable, List.map_tail]

end Compilation

/-- No variable is being declared. -/
class Bracket.AtRest (ps : List Bracket) : Prop where
  ne : ps.head? ≠ some .declaration

instance atRest_nil : Bracket.AtRest [] := ⟨nofun⟩
instance atRest_scope (ps : List Bracket) : Bracket.AtRest (.scope :: ps) := ⟨nofun⟩
instance atRest_breakable (ps : List Bracket) : Bracket.AtRest (.breakable :: ps) := ⟨nofun⟩
instance atRest_top (ps : List Bracket) : Bracket.AtRest (.top :: ps) := ⟨nofun⟩

theorem Shape.Settled.weaken {a : Shape} {ps qs : List Bracket} [hp : Bracket.AtRest ps]
    [hq : Bracket.AtRest qs] (h : a.Settled ps)
    (hcount : qs.count .scope ≤ ps.count .scope) (htop : .top ∉ qs) : a.Settled qs := by
  have hready := h.ready
  rw [if_neg hp.ne] at hready
  exact ⟨by rwa [if_neg hq.ne], hcount.trans h.deep, fun hmem => absurd hmem htop⟩

namespace Comp

open Compilation (KeepsComplaints Shared Spreads)

variable {α β : Type} {ps qs rs : List Bracket}

/-- A clean run of `x` ends the brackets `ps` up to `qs`; but for that the functions under way only
grow. -/
class Shifts (ps : List Bracket) (qs : outParam (List Bracket)) (x : Comp α) : Prop where
  run : ∀ s : Compilation, s.Sober → (x.run s).2.Clean → s.context.shape.Settled ps →
    (x.run s).2.context.shape.Settled qs ∧ List.Forall₂ (· ≤ ·) (s.shapes ps) ((x.run s).2.shapes qs)
  keeps : Obeys KeepsComplaints x := by infer_instance

instance (priority := low) shifts_spreads (x : Comp α) [h : Obeys Spreads x]
    [Obeys KeepsComplaints x] : Shifts ps ps x :=
  ⟨fun s _ _ hs => ⟨hs.mono (h.run s).context, (h.run s).shapes ps⟩, inferInstance⟩

/-- A first part with brackets of its own, and what follows. -/
theorem Shifts.step {x : Comp α} {f : α → Comp β} [hx : Shifts ps qs x]
    (hf : ∀ a, Shifts qs rs (f a)) : Shifts ps rs (x >>= f) where
  run s hsober hc hs := by
    have hmid := hx.run s hsober (((hf _).keeps.run _).clean hc) hs
    have hend := (hf _).run _ ((hx.keeps.run s).sober hsober) hc hmid.1
    exact ⟨hend.1, Compilation.forall₂_le_trans hmid.2 hend.2⟩
  keeps := @Abreast.step _ _ _ _ _ _ _ _ hx.keeps fun a => (hf a).keeps

instance shifts_bind (x : Comp α) (f : α → Comp β) [Shifts ps qs x] [hf : ∀ a, Shifts qs rs (f a)] :
    Shifts ps rs (x >>= f) := .step hf

theorem Shifts.le {x : Comp α} (h : Shifts [] [] x) (hsober : s.Sober) (hc : (x.run s).2.Clean)
    (hs : s.context.shape.Settled []) : s.context.shape ≤ (x.run s).2.context.shape :=
  Compilation.Spreads.context (h.run s hsober hc hs).2

theorem shifts_get {f : Compilation → Comp β} (hf : ∀ s, Shifts ps qs (f s)) :
    Shifts ps qs (get >>= f) where
  run s := (hf s).run s
  keeps := .step fun s => (hf s).keeps

instance shifts_ite (c : Prop) [Decidable c] (x y : Comp α) [hx : Shifts ps qs x]
    [hy : Shifts ps qs y] : Shifts ps qs (if c then x else y) := by
  split
  · exact hx
  · exact hy

/-! ## Brackets -/

theorem Shifts.of_shape {x : Comp α} [Obeys KeepsComplaints x] (φ : Shape → Shape)
    (hx : ∀ s : Compilation, s.Sober → (x.run s).2.Clean → s.context.shape.Settled ps →
      (x.run s).2.around = s.around ∧ (x.run s).2.context.shape = φ s.context.shape)
    (hsettled : ∀ a : Shape, a.Settled ps → (φ a).Settled qs)
    (hle : ∀ a : Shape, a.Settled ps → a.close ps ≤ (φ a).close qs) : Shifts ps qs x where
  run s hsober hc hs := by
    obtain ⟨haround, hshape⟩ := hx s hsober hc hs
    unfold Compilation.shapes
    rw [haround, hshape]
    exact ⟨hsettled _ hs, .cons (hle _ hs) (List.forall₂_same.2 fun _ _ => le_rfl)⟩

instance shifts_beginScope [h : Bracket.AtRest ps] : Shifts ps (.scope :: ps) beginScope :=
  .of_shape (fun a => { a with depth := a.depth + 1 }) (fun _ _ _ _ => ⟨rfl, rfl⟩) (fun a ha => by
      have hready := ha.ready
      rw [if_neg h.ne] at hready
      obtain ⟨ds, hds, hsorted, hle⟩ := hready
      exact ⟨⟨ds, hds, hsorted, fun d hd =>
        Nat.le_succ_of_le (hle d hd)⟩, by simpa using ha.deep, by simpa using ha.top⟩)
    fun a ha => by
      have hready := ha.ready
      rw [if_neg h.ne] at hready
      exact le_of_eq (congrArg (Shape.close ps) hready.endScope_deepen.symm)

theorem emitByte_shape (b : UInt8) (s : Compilation) :
    ((emitByte b).run s).2.context.shape = s.context.shape.add 1 := by
  show Context.shape { s.context with chunk := s.context.chunk.write b s.previous.location.line } = _
  simp [Context.shape, Chunk.write, Shape.add]

theorem emit_shape (op : Op) (s : Compilation) :
    ((emit op).run s).2.context.shape = s.context.shape.add 1 :=
  emitByte_shape op.toByte s

theorem emitAll_shape (ops : List Op) (s : Compilation) : ((emitAll ops).run s).2.around = s.around ∧
    ((emitAll ops).run s).2.context.locals = s.context.locals ∧
    ((emitAll ops).run s).2.context.shape = s.context.shape.add ops.length := by
  induction ops generalizing s with
  | nil => exact ⟨rfl, rfl, rfl⟩
  | cons op ops ih =>
    have hrun : (emitAll (op :: ops)).run s = (emitAll ops).run ((emit op).run s).2 := rfl
    obtain ⟨haround, hlocals, hshape⟩ := ih ((emit op).run s).2
    rw [hrun]
    refine ⟨haround, hlocals, hshape.trans ?_⟩
    rw [emit_shape, Shape.add, Shape.add, Shape.add, List.length_cons, Nat.add_assoc, Nat.add_comm 1]

theorem take_eq_rdropWhile (p : Option Nat → Bool) (ls : List Local) :
    (ls.take (ls.length - (ls.reverse.takeWhile (p ∘ Local.depth)).length)).map Local.depth =
      (ls.map Local.depth).rdropWhile p := by
  have hsplit : ls = (ls.reverse.dropWhile (p ∘ Local.depth)).reverse ++
      (ls.reverse.takeWhile (p ∘ Local.depth)).reverse := by
    rw [← List.reverse_append, List.takeWhile_append_dropWhile, List.reverse_reverse]
  have hlength := congrArg List.length hsplit
  simp only [List.length_append, List.length_reverse] at hlength
  rw [List.rdropWhile, ← List.map_reverse, List.dropWhile_map, ← List.map_reverse]
  refine congrArg (List.map Local.depth) ?_
  conv_lhs => arg 2; rw [hsplit]
  rw [List.take_append_of_le_length (by simp only [List.length_reverse]; omega),
    List.take_of_length_le (by simp only [List.length_reverse]; omega)]

theorem endScope_shape (s : Compilation) :
    (endScope.run s).2.around = s.around ∧
    (endScope.run s).2.context.shape = s.context.shape.endScope := by
  let ending :=
    s.context.locals.toList.reverse.takeWhile (Shape.deeper (s.context.depth - 1) ∘ Local.depth)
  let begun : Compilation := { s with context := { s.context with depth := s.context.depth - 1 } }
  obtain ⟨haround, hlocals, hshape⟩ := emitAll_shape (ending.map Context.endOp) begun
  have hrun : (endScope.run s).2 =
      { ((emitAll (ending.map Context.endOp)).run begun).2 with
        context := { ((emitAll (ending.map Context.endOp)).run begun).2.context with
          locals := ((emitAll (ending.map Context.endOp)).run begun).2.context.locals.take
            (((emitAll (ending.map Context.endOp)).run begun).2.context.locals.size - ending.length)
            } } := rfl
  have hkept : (s.context.locals.toList.take (s.context.locals.toList.length - ending.length)).map
    Local.depth =
      (s.context.locals.toList.map Local.depth).rdropWhile (Shape.deeper (s.context.depth - 1)) := by
    rw [← take_eq_rdropWhile]
  have hlength : ending.length ≤ s.context.locals.toList.length :=
    (List.takeWhile_sublist _).length_le.trans_eq List.length_reverse
  rw [hrun]
  refine ⟨haround, ?_⟩
  generalize ((emitAll (ending.map Context.endOp)).run begun).2.context = c at hlocals hshape
  have hended : ({ c with locals := c.locals.take (c.locals.size - ending.length) } : Context).shape =
      { c.shape with
        depths := (s.context.locals.toList.take
        (s.context.locals.toList.length - ending.length)).map Local.depth } := by
    rw [hlocals]
    simp [Context.shape, begun]
  rw [hended, hshape, hkept]
  simp only [Shape.endScope, Shape.add, begun, Context.shape, List.length_map, ← hkept,
    List.length_take, Shape.mk.injEq, and_true]
  omega

instance shifts_endScope [h : Bracket.AtRest ps] : Shifts (.scope :: ps) ps endScope :=
  .of_shape Shape.endScope (fun s _ _ _ => endScope_shape s) (fun a ha => by
      have hdeep := ha.deep
      have htop := ha.top
      rw [List.count_cons_self] at hdeep htop
      exact ⟨by rw [if_neg h.ne]; exact Shape.Ready.endScope ha.ready, Nat.le_sub_of_add_le hdeep,
        fun hmem => Nat.sub_eq_of_eq_add (htop (List.mem_cons_of_mem _ hmem))⟩)
    fun _ _ => le_rfl

instance shifts_beginBreakable (isLoop : Bool) (target : Nat) [h : Bracket.AtRest ps] :
    Shifts ps (.breakable :: ps) (beginBreakable isLoop target) := by
  have hbegin : Shifts ps (.breakable :: ps) (modifyContext fun c =>
      { c with breakables := ⟨isLoop, c.locals.size, target, #[]⟩ :: c.breakables }) :=
    .of_shape (fun a => { a with breaks := [] :: a.breaks }) (fun _ _ _ _ => ⟨rfl, rfl⟩)
      (fun a ha =>
        ha.of_ready rfl (by simp) (by simp) (by have := ha.ready; rwa [if_neg h.ne] at this))
        fun _ _ => le_rfl
  unfold beginBreakable
  infer_instance

theorem endBreakable_run (s : Compilation) :
    endBreakable.run s = (patchAll (s.context.shape.breaks.headD [])).run s.leaveBreakable := by
  unfold endBreakable Compilation.leaveBreakable
  simp only [StateT.run_bind, StateT.run_get, pure_bind]
  cases hbs : s.context.breakables with
  | nil =>
    have hnone : s.context.shape.breaks = [] := by simp [Context.shape, hbs]
    have hsame : ({ s with context := { s.context with breakables := [] } } : Compilation) = s := by
      rw [← hbs]
    rw [hnone, List.tail_nil, hsame]
    rfl
  | cons b bs =>
    simp only [Context.shape, hbs]
    rfl

instance shifts_endBreakable [h : Bracket.AtRest ps] : Shifts (.breakable :: ps) ps endBreakable where
  run s _ _ hs := by
    have hpatch : Obeys Spreads (patchAll (s.context.shape.breaks.headD [])) := inferInstance
    have hend := hpatch.run s.leaveBreakable
    have hclose := hend.shapes ps
    have hleft : s.leaveBreakable.context.shape.Settled ps :=
      hs.of_ready rfl (by simp) (by simp) (by rw [if_neg h.ne]; exact hs.ready)
    unfold Compilation.shapes at hclose
    rw [s.shape_leaveBreakable] at hclose
    rw [endBreakable_run]
    exact ⟨hleft.mono hend.context, hclose⟩

/-! ## Declarations -/

theorem addLocal_shape (name : String) (hs : s.Sober) (hc : ((addLocal name).run s).2.Clean) :
    ((addLocal name).run s).2.around = s.around ∧ ((addLocal name).run s).2.context.shape =
      s.context.shape.push := by
  have hrun : (addLocal name).run s = StateT.run (m := Id) (if s.context.locals.size == maxLocals then
      complain (.limit .locals) else modifyContext fun c =>
        { c with locals := c.locals.push { name := name } } : Comp Unit) s := rfl
  rw [hrun] at hc ⊢
  split at hc <;> rename_i hfull
  · exact absurd hc (hs.complain _ _)
  · rw [if_neg hfull]
    refine ⟨rfl, ?_⟩
    show Context.shape { s.context with locals := s.context.locals.push { name := name } } = _
    simp [Context.shape, Shape.push]

instance shifts_addLocal (name : String) :
    Shifts (.scope :: ps) (.declaration :: .scope :: ps) (addLocal name) :=
  .of_shape Shape.push (fun _ hs hc _ => addLocal_shape name hs hc)
    (fun _ ha => ha.of_ready rfl (by simp) (by simp) (Shape.Ready.markReady_push ha.ready))
    fun _ ha => Shape.close_mono ps (Shape.endScope_push (Nat.lt_of_lt_of_le (by simp) ha.deep))

instance shifts_declareLocal : Shifts (.scope :: ps) (.declaration :: .scope :: ps) declareLocal where
  run s hsober hc hs := by
    have hpos : 0 < s.context.depth := Nat.lt_of_lt_of_le (by simp) hs.deep
    have hrun : declareLocal.run s = StateT.run (m := Id) (do
        if s.context.declaredHere s.previous.text then complain (.misuse .duplicateLocal)
        addLocal s.previous.text : Comp Unit) s := by
      show StateT.run (m := Id) (if 0 < s.context.depth then _ else _) s = _
      rw [if_pos hpos]
    have hshifts : Shifts (.scope :: ps) (.declaration :: .scope :: ps) (do
        if s.context.declaredHere s.previous.text then complain (.misuse .duplicateLocal)
        addLocal s.previous.text : Comp Unit) := inferInstance
    rw [hrun] at hc ⊢
    exact hshifts.run s hsober hc hs

instance shifts_declareName (m : Missing) :
    Shifts (.scope :: ps) (.declaration :: .scope :: ps) (declareName m) :=
  .step fun _ => .step fun _ => inferInstance

theorem markReady_shape (c : Context) : c.markReady.shape = c.shape.markReady := by
  have hdepths : c.markReady.locals.toList.map Local.depth = (c.locals.toList.map Local.depth).modify
      ((c.locals.toList.map Local.depth).length - 1) fun _ => some c.depth := by
    refine List.ext_getElem? fun i => ?_
    simp only [Context.markReady, List.getElem?_map, Array.getElem?_toList, Array.getElem?_modify,
      List.getElem?_modify, List.length_map, Array.length_toList]
    split <;> simp [Function.comp_def]
  simp only [Context.shape, Shape.markReady, ← hdepths]
  rfl

/-- In a scope the variable declared last becomes ready; its declaration may go on. -/
theorem shifts_ready {x : Comp Unit} [Obeys KeepsComplaints x]
    (hx : ∀ s : Compilation, 0 < s.context.depth →
      x.run s = ((), { s with context := s.context.markReady })) :
    Shifts (.declaration :: .scope :: ps) (.scope :: ps) x ∧
      Shifts (.declaration :: .scope :: ps) (.declaration :: .scope :: ps) x := by
  have hshape : ∀ s : Compilation, s.context.shape.Settled (.declaration :: .scope :: ps) →
      (x.run s).2.around = s.around ∧ (x.run s).2.context.shape = s.context.shape.markReady :=
      fun s hs => by
    rw [hx s (Nat.lt_of_lt_of_le (by simp) hs.deep)]
    exact ⟨rfl, markReady_shape s.context⟩
  refine ⟨.of_shape Shape.markReady (fun s _ _ => hshape s)
      (fun a ha => ha.of_ready rfl (by simp) (by simp) ha.ready) fun _ _ => le_rfl,
    .of_shape Shape.markReady (fun s _ _ => hshape s) (fun a ha => ha.of_ready rfl rfl id ?_)
      fun a _ => le_of_eq ?_⟩
  · show a.markReady.markReady.Ready
    rw [a.markReady_markReady]
    exact ha.ready
  · simp only [Shape.close, a.markReady_markReady]

theorem markReady_run (h : 0 < s.context.depth) :
    markReady.run s = ((), { s with context := s.context.markReady }) := by
  show StateT.run (m := Id) (if 0 < s.context.depth then _ else _) s = _
  rw [if_pos h]
  rfl

theorem defineVariable_run (index : UInt8) (h : 0 < s.context.depth) :
    (defineVariable index).run s = ((), { s with context := s.context.markReady }) := by
  show StateT.run (m := Id) (if 0 < s.context.depth then _ else _) s = _
  rw [if_pos h]
  rfl

instance shifts_markReady :
    Shifts (.declaration :: .scope :: ps) (.declaration :: .scope :: ps) markReady :=
  (shifts_ready fun _ => markReady_run).2

theorem shifts_markReady_end (ps : List Bracket) :
    Shifts (.declaration :: .scope :: ps) (.scope :: ps) markReady :=
  (shifts_ready fun _ => markReady_run).1

instance shifts_defineVariable (index : UInt8) :
    Shifts (.declaration :: .scope :: ps) (.scope :: ps) (defineVariable index) :=
  (shifts_ready fun _ => defineVariable_run index).1

/-! Outside of scopes a declaration is of a global. -/

theorem shifts_top {x : Comp α} [Obeys KeepsComplaints x] {y : Compilation → Comp α}
    [hy : ∀ s, Obeys Spreads (y s)]
    (hx : ∀ s : Compilation, s.context.depth = 0 → x.run s = (y s).run s) :
    Shifts [.top] [.top] x where
  run s _ _ hs := by
    rw [hx s (hs.top List.mem_cons_self)]
    exact ⟨hs.mono ((hy s).run s).context, ((hy s).run s).shapes _⟩

instance shifts_top_markReady : Shifts [.top] [.top] markReady :=
  shifts_top (y := fun _ => pure ()) fun s hs => by
  show StateT.run (m := Id) (if 0 < s.context.depth then _ else _) s = _
  rw [hs]
  rfl

instance shifts_top_defineVariable (index : UInt8) : Shifts [.top] [.top] (defineVariable index) :=
  shifts_top (y := fun _ => emitWith .defineGlobal index) fun s hs => by
    show StateT.run (m := Id) (if 0 < s.context.depth then _ else _) s = _
    rw [hs]
    rfl

instance shifts_top_declareName (m : Missing) : Shifts [.top] [.top] (declareName m) := by
  have : Shifts [.top] [.top] declareLocal := shifts_top (y := fun _ => pure ()) fun s hs => by
    show StateT.run (m := Id) (if 0 < s.context.depth then _ else _) s = _
    rw [hs]
    rfl
  exact .step fun _ => .step fun _ => inferInstance

/-! ## The parser -/

/-- What the parts of the parser may rely on. -/
class Grows (p : Recur) : Prop where
  keeps : Fellows (Shared KeepsComplaints) p p
  steady : Partners (Shared Spreads) p p
  statement : ∀ (ps : List Bracket) [Bracket.AtRest ps], Shifts ps ps (p .statement)
  clauses : ∀ (ps : List Bracket) [Bracket.AtRest ps] (c : Clauses), Shifts ps ps (p (.clauses c))
  declaration : ∀ ps : List Bracket, Shifts (.scope :: ps) (.scope :: ps) (p .declaration)
  sentence : Shifts [.top] [.top] (p .declaration)
  block : ∀ ps : List Bracket, Shifts (.scope :: ps) (.scope :: ps) (p .block)
  caseBody : ∀ ps : List Bracket, Shifts (.scope :: ps) (.scope :: ps) (p .caseBody)
  parameters : ∀ ps : List Bracket, Shifts (.scope :: ps) (.scope :: ps) (p .parameters)

attribute [instance] Grows.keeps Grows.steady Grows.statement Grows.clauses Grows.declaration
  Grows.sentence Grows.block Grows.caseBody Grows.parameters

section

variable (self : Recur) [grows : Grows self]

instance shifts_parseParameters : Shifts (.scope :: ps) (.scope :: ps) (parseParameters self) :=
  .step fun _ => .step fun _ => .step fun _ => inferInstance

omit grows in
theorem settled_beginFunction (name : String) (s : Compilation) :
    ((beginFunction name).run s).2.context.shape.Settled [] :=
  ⟨⟨[0], rfl, List.pairwise_singleton _ _, fun _ hd => (List.mem_singleton.1 hd).le⟩,
    Nat.zero_le _, nofun⟩

omit grows in
theorem endFunction_run (s : Compilation) :
    (endFunction.run s).2.diagnostics = s.diagnostics ∧ (endFunction.run s).2.panicking = s.panicking ∧
      ∀ c cs, s.around = c :: cs →
      (endFunction.run s).2 = { (finishFunction.run s).2 with context := c, around := cs } := by
  let ended := (finishFunction.run s).2
  have hend : (endFunction.run s).2 = ended.leave := rfl
  rw [hend]
  unfold Compilation.leave
  refine ⟨by split <;> rfl, by split <;> rfl, fun c cs hcs => ?_⟩
  rw [show ended.around = c :: cs from hcs]

/-- A function leaves those around it as they were, but for what it captures of them. -/
instance shifts_inFunction (name : String) (x : Comp Unit) [hx : Shifts [] qs x] :
    Shifts ps ps (inFunction name x) where
  keeps := @abreast_inFunction _ _ _ name x x hx.keeps
  run s hsober hc hs := by
    let begun := ((beginFunction name).run s).2
    have hrun : ((inFunction name x).run s).2 = (endFunction.run (x.run begun).2).2 := rfl
    rw [hrun] at hc ⊢
    obtain ⟨hclean, -, hpop⟩ := endFunction_run (x.run begun).2
    obtain ⟨-, hshapes⟩ := hx.run begun hsober (hclean.symm.trans hc) (settled_beginFunction name s)
    obtain ⟨-, haround⟩ := List.forall₂_cons.1 hshapes
    cases hcs : (x.run begun).2.around with
    | nil =>
      rw [hcs] at haround
      cases haround
    | cons c cs =>
      rw [hcs] at haround
      obtain ⟨hle, haround⟩ := List.forall₂_cons.1 haround
      unfold Compilation.shapes
      rw [hpop c cs hcs]
      exact ⟨hs.mono hle, .cons (Shape.close_mono ps hle) haround⟩

instance shifts_parseNames : Shifts (.scope :: ps) (.scope :: ps) (parseNames self) :=
  .step fun _ => inferInstance

instance shifts_parseInside : Shifts [] [.scope] (parseInside self) :=
  .step fun _ => .step fun _ => .step fun _ => .step fun _ => .step fun _ => inferInstance

instance shifts_parseFunction : Shifts ps ps (parseFunction self) :=
  .step fun _ => .step fun _ => .step fun _ => inferInstance

instance shifts_parseFunctionDeclaration :
    Shifts (.scope :: ps) (.scope :: ps) (parseFunctionDeclaration self) :=
  .step fun _ => .step fun _ => .step fun _ => inferInstance

instance shifts_parseVariableDeclaration :
    Shifts (.scope :: ps) (.scope :: ps) (parseVariableDeclaration self) :=
  .step fun _ => .step fun _ => .step fun _ => inferInstance

instance shifts_top_parseFunctionDeclaration : Shifts [.top] [.top] (parseFunctionDeclaration self) :=
  .step fun _ => .step fun _ => .step fun _ => inferInstance

instance shifts_top_parseVariableDeclaration : Shifts [.top] [.top] (parseVariableDeclaration self) :=
  .step fun _ => .step fun _ => .step fun _ => inferInstance

instance shifts_parseForStart : Shifts (.scope :: ps) (.scope :: ps) (parseForStart self) :=
  .step fun _ => .step fun _ => inferInstance

variable [Bracket.AtRest ps]

instance shifts_parseElse (done : Nat) : Shifts ps ps (parseElse self done) :=
  .step fun _ => by dsimp only; infer_instance

instance shifts_parseOther (other : Nat) : Shifts ps ps (parseOther self other) :=
  .step fun _ => .step fun _ => inferInstance

instance shifts_parseIf : Shifts ps ps (parseIf self) := .step fun _ => .step fun _ => inferInstance

/-- The innermost loop is left behind its body. -/
instance shifts_parseLoop (next : Nat) (exit? : Option Nat) :
    Shifts ps ps (parseLoop self next exit?) :=
  .step fun _ => .step fun _ => .step fun _ => .step fun _ => inferInstance

instance shifts_parseWhile : Shifts ps ps (parseWhile self) :=
  .step fun _ => .step fun _ => inferInstance

/-- What is declared before the loop goes with its scope. -/
instance shifts_parseFor : Shifts ps ps (parseFor self) :=
  .step fun _ => .step fun _ => .step fun _ => .step fun _ => .step fun _ => .step fun _ =>
    inferInstance

section

variable (c : Clauses)

instance shifts_openClause (before : Comp Unit) (test : Comp (Option Nat)) (sawDefault : Bool)
    [Obeys KeepsComplaints before] [Obeys Spreads before] [Obeys KeepsComplaints test]
    [Obeys Spreads test] : Shifts ps (.scope :: ps) (openClause c before test sawDefault) :=
  .step fun _ => .step fun _ => .step fun _ => .step fun _ => inferInstance

instance shifts_finishClause : Shifts (.scope :: ps) ps (finishClause self c) :=
  .step fun _ => .step fun _ => inferInstance

instance shifts_parseBody : Shifts (.scope :: ps) ps (parseBody self c) := .step fun _ => inferInstance

instance shifts_parseCase : Shifts ps ps (parseCase self c) := .step fun _ => inferInstance
instance shifts_parseDefault : Shifts ps ps (parseDefault self c) := .step fun _ => inferInstance

instance shifts_parseClauses : Shifts ps ps (parseClauses self c) := by
  refine .step fun closed => .step fun ended => ?_
  split
  · infer_instance
  refine .step fun case => ?_
  split
  · infer_instance
  refine .step fun other => ?_
  split
  · infer_instance
  · exact .step fun _ => .step fun _ => inferInstance

end

instance shifts_parseChoices : Shifts ps ps (parseChoices self) :=
  shifts_get fun _ => .step fun _ => .step fun _ => .step fun _ => inferInstance

instance shifts_parseSwitch : Shifts ps ps (parseSwitch self) := by
  have := shifts_markReady_end ps
  exact .step fun _ => .step fun _ => .step fun _ => .step fun _ => .step fun _ => inferInstance

instance shifts_parseBlock : Shifts (.scope :: ps) (.scope :: ps) (parseBlock self) :=
  .step fun _ => .step fun _ => inferInstance

instance shifts_parseCaseBody : Shifts (.scope :: ps) (.scope :: ps) (parseCaseBody self) :=
  shifts_get fun s => by split <;> infer_instance

instance shifts_parseStatement : Shifts ps ps (parseStatement self) :=
  shifts_get fun s => by split <;> infer_instance

instance shifts_parseSentence : Shifts (.scope :: ps) (.scope :: ps) (parseSentence self) :=
  shifts_get fun s => by split <;> infer_instance

instance shifts_top_parseSentence : Shifts [.top] [.top] (parseSentence self) :=
  shifts_get fun s => by split <;> infer_instance

instance shifts_parseDeclaration : Shifts (.scope :: ps) (.scope :: ps) (parseDeclaration self) :=
  .step fun _ => inferInstance

instance shifts_top_parseDeclaration : Shifts [.top] [.top] (parseDeclaration self) :=
  .step fun _ => inferInstance

instance grows_round : Grows (round self) where
  keeps := ⟨fun g => abreast_round self self g⟩
  steady := partners_round self self
  statement _ _ := shifts_parseStatement self
  clauses _ _ c := shifts_parseClauses self c
  declaration _ := shifts_parseDeclaration self
  sentence := shifts_top_parseDeclaration self
  block _ := shifts_parseBlock self
  caseBody _ := shifts_parseCaseBody self
  parameters _ := shifts_parseParameters self

end

instance grows_parseFrom (z : Recur) [Grows z] (fuel : Nat) : Grows (parseFrom z fuel) := by
  induction fuel with
  | zero => assumption
  | succ fuel ih => unfold parseFrom; infer_instance

end Comp

end Parlance
