/-
  An entry that can be completed is never refused for good.
-/
import Parlance.Proofs.Compiler.Trailing

namespace Parlance

variable {S : Compilation}

/-- The open jumps of a row of clauses are within their limit, where the function of now has this
shape. -/
structure Clauses.Within (c : Clauses) (a : Shape) : Prop where
  skip : ∀ j ∈ c.skip?, a.size ≤ j + 65537
  fall : ∀ j ∈ c.fall?, a.size + Comp.pops c.skip? ≤ j + 65537

/-- The open jumps of a row of clauses in `S` are as near as those in `F`. -/
structure Clauses.Near (c c' : Clauses) (S F : Compilation) : Prop where
  skip : c'.skip? = c.skip?
  fall : ∀ j ∈ c.fall?, ∃ j' ∈ c'.fall?, S.context.shape.size + j' ≤ F.context.shape.size + j

namespace Comp

open Compilation (Behind KeepsComplaints Spreads)

variable {S F : Compilation} {α β : Type} {ps qs : List Bracket}

/-! ## Goals that need a token -/

/-- A goal that takes a token at least. -/
@[reducible]
def isNeedy : Goal → Bool
  | .expression _ | .printed _ | .arguments _ | .statement | .declaration | .block | .parameters =>
      true
  | _ => false

/-- At the end of the text such a goal cuts it. -/
class Mortal (p : Recur) : Prop where
  dies : ∀ (g : Goal) [IsTrue (isNeedy g)], Dies (p g)

instance (priority := low) dies_needy (self : Recur) [h : Mortal self] (g : Goal)
    [IsTrue (isNeedy g)] : Dies (self g) := h.dies g

theorem dies_get {f : Compilation → Comp β} (hf : ∀ s : Compilation, s.current.kind = .eof →
      Dies (f s)) : Dies (get >>= f) :=
  ⟨fun {S} h => (hf S h.eof).run h⟩

instance dies_complainHere (c : Complaint) : Dies (complainHere c) := ⟨fun h => h.complain h.eof c⟩

section

variable (self : Recur) [Grows self] [Mortal self]

instance dies_parseExpression (p : Precedence) : Dies (parseExpression self p) := ⟨fun {S} h => by
  have hadvance : S.advance = { S with previous := S.current } := by
    unfold Compilation.advance
    rw [if_pos (beq_iff_eq.2 h.eof)]
  unfold parseExpression
  rw [run_bind]
  show (StateT.run (m := Id) (match opening? S.advance.previous.kind with | none => _ | some _ => _)
    S.advance).2.Cut
  rw [hadvance, h.eof]
  exact Compilation.Ended.complain (S := { S with previous := S.current }) ⟨h.eof, h.clean, h.calm⟩
    h.eof .noExpression⟩

instance dies_declareName (m : Missing) : Dies (declareName m) := dies_bind ..

/-- Too many parameters are a complaint about the token of now. -/
instance dies_countParameter (f : Unit → Comp β) [∀ a, Dies (f a)] [∀ a, Obeys KeepsComplaints (f a)] :
    Dies (countParameter >>= f) := by
  have hcounted : ∀ s : Compilation,
      Dies ((if maxParameters < s.context.arity then complainHere (.limit .parameters) else pure
        ()) >>= f) := fun s => by
    split <;> infer_instance
  exact dies_after (modifyContext fun c => { c with arity := c.arity + 1 }) fun _ => get >>= fun s =>
    (if maxParameters < s.context.arity then complainHere (.limit .parameters) else pure ()) >>= f

instance dies_parseParameters : Dies (parseParameters self) :=
  dies_countParameter fun _ => declareName .parameterName >>= fun index =>
    defineVariable index >>= fun _ =>
    accept .comma >>= fun more => if more then self .parameters else pure ()

instance dies_parseRow (bound : Nat) (l : Limit) (count : Nat) (g : Goal) [g.Proper] (x : Comp Unit)
    [Obeys KeepsComplaints x] : Dies (parseRow self bound l count g x) := dies_bind ..

instance dies_parseExpressionStatement : Dies (parseExpressionStatement self) := dies_bind ..

instance dies_parseStatement : Dies (parseStatement self) := dies_get fun s hs => by
  rw [hs]
  infer_instance

instance dies_parseSentence : Dies (parseSentence self) := dies_get fun s hs => by
  rw [hs]
  infer_instance

instance dies_parseDeclaration : Dies (parseDeclaration self) := dies_bind ..

instance dies_parseBlock : Dies (parseBlock self) := ⟨fun {S} h => by
  have hexpect : Dies (expect .rightBrace .blockBrace) := inferInstance
  rw [parseBlock_run, if_pos (.inr h.eof)]
  exact hexpect.run h⟩

instance mortal_round : Mortal (round self) := ⟨fun g hg => by
  cases g with
  | expression p => exact dies_parseExpression self p
  | printed count => exact dies_parseRow self ..
  | arguments count => exact dies_parseRow self ..
  | statement => exact dies_parseStatement self
  | declaration => exact dies_parseDeclaration self
  | block => exact dies_parseBlock self
  | parameters => exact dies_parseParameters self
  | _ => exact absurd hg.eq (by simp)⟩

end

/-! ## Expressions -/

/-- A move that adds `n` bytes of code at least. -/
class Adds (n : Nat) (x : Comp α) : Prop where
  run : ∀ s : Compilation, s.context.shape.add n ≤ (x.run s).2.context.shape

instance adds_emitWith (op : Op) (b : UInt8) : Adds 2 (emitWith op b) :=
  ⟨fun s => (emitWith_shape op b s).ge⟩

instance adds_bind (n : Nat) (x : Comp α) (f : α → Comp β) [hx : Adds n x]
    [hf : ∀ a, Obeys Spreads (f a)] : Adds n (x >>= f) :=
  ⟨fun s => (hx.run s).trans ((hf _).run _).context⟩

theorem Adds.after {n : Nat} {x : Comp α} {f : α → Comp β} [hx : Obeys Spreads x]
    (hf : ∀ a, Adds n (f a)) :
    Adds n (x >>= f) := ⟨fun s => (Shape.add_mono (hx.run s).context n).trans ((hf _).run _)⟩

instance adds_ite (n : Nat) (c : Prop) [Decidable c] (x y : Comp α) [hx : Adds n x]
    [hy : Adds n y] : Adds n (if c then x else y) := by
  split
  · exact hx
  · exact hy

/-! ## Parts that do not call the parser -/

instance paces_parseIncrement : Paces ps parseIncrement :=
  .step fun _ => .step fun _ => .step fun _ => inferInstance

instance paces_finishCall (count : Nat) : Paces ps (finishCall count) := .step fun _ => inferInstance
instance dies_finishCall (count : Nat) : Dies (finishCall count) := dies_bind ..
instance paces_finishPrint (count : Nat) : Paces ps (finishPrint count) := .step fun _ => inferInstance
instance dies_finishPrint (count : Nat) : Dies (finishPrint count) := dies_bind ..

instance paces_parseBreak : Paces ps parseBreak := keeps_get (fun _ _ _ => rfl) fun s => by
  split
  · exact .step fun _ => inferInstance
  · exact .step fun _ => inferInstance

instance paces_parseContinue : Paces ps parseContinue := keeps_get (fun _ _ _ => rfl) fun s => by
  split
  · exact .step fun _ => inferInstance
  · exact .step fun _ => inferInstance

instance paces_declareName (m : Missing) : Paces ps (declareName m) := .step fun _ => inferInstance

/-- What the parser does with a text and with a longer one, as its parts may rely on it. -/
class Follows (p : Recur) : Prop where
  mortal : Mortal p
  expression : ∀ (ps : List Bracket) (r : Precedence) [r.Binds], Tracks ps (p (.expression r))
  operators : ∀ (ps : List Bracket) (r : Precedence) [r.Binds] (canAssign : Bool),
    Tracks ps (p (.operators r canAssign))
  operatorsBehind : ∀ (ps : List Bracket) (r : Precedence) [r.Binds] (canAssign : Bool),
    Trails ps (p (.operators r canAssign))
  arguments : ∀ (ps : List Bracket) (count : Nat), Tracks ps (p (.arguments count))
  printed : ∀ (ps : List Bracket) (count : Nat), Tracks ps (p (.printed count))
  statement : ∀ (ps : List Bracket) [Bracket.AtRest ps], Tracks ps (p .statement)
  declaration : ∀ ps : List Bracket, Tracks (.scope :: ps) (p .declaration)
  sentence : Tracks [.top] (p .declaration)
  block : ∀ ps : List Bracket, Paces (.scope :: ps) (p .block)
  parameters : ∀ ps : List Bracket, Ends (.scope :: ps) (p .parameters)
  caseBody : ∀ ps : List Bracket, Keeps (Behind [.scope]) (.scope :: ps) (p .caseBody)
  caseBodyBehind : ∀ ps : List Bracket, Lags (Behind [.scope]) (.scope :: ps) (p .caseBody)
  clauses : ∀ (ps : List Bracket) [Bracket.AtRest ps] (c : Clauses), Tracks ps (p (.clauses c))
  clausesBehind : ∀ {S F : Compilation} {c c' : Clauses}, c.Near c' S F → S.Behind [] F → F.Sober →
    F.context.shape.Settled [] → ((p (.clauses c')).run F).2.Clean →
    ((p (.clauses c)).run S).2.Cut ∨ ((p (.clauses c)).run S).2.Behind [] ((p (.clauses c')).run F).2

attribute [instance] Follows.mortal Follows.expression Follows.operators Follows.operatorsBehind
  Follows.arguments
  Follows.printed Follows.statement Follows.declaration Follows.sentence Follows.block
  Follows.parameters Follows.caseBody Follows.caseBodyBehind Follows.clauses

section

variable (self : Recur) [Grows self] [follows : Follows self]

section

variable (v : Access)

theorem parseStep_eof (h : S.Ended) : (parseStep v).run S = (emitWith v.read v.operand).run S := by
  unfold parseStep
  rw [accept_eof .plusPlus _ h]
  exact accept_eof .minusMinus _ h

omit [Grows self] follows in
theorem parseChange_eof (h : S.Ended) :
    (parseChange self v).run S = (emitWith v.read v.operand).run S := by
  unfold parseChange
  rw [accept_eof .assign _ h]
  exact (acceptCompound_eof h _).trans (parseStep_eof v h)

theorem trails_read {x : Comp Unit} [hx : Adds 2 x] [Obeys KeepsComplaints x]
    (heof : ∀ {S : Compilation}, S.Ended → x.run S = (emitWith v.read v.operand).run S) :
    Trails ps x where
  run {S F} h _ _ _ := by
    have hread : Idles (emitWith v.read v.operand) := inferInstance
    rw [heof h.toEnded]
    refine .inr ⟨hread.run h.toEnded, ?_⟩
    show ((emitWith v.read v.operand).run S).2.context.shape ≤ _
    rw [emitWith_shape]
    exact (Shape.add_mono h.le 2).trans (hx.run F)

instance adds_parseStep : Adds 2 (parseStep v) := .after fun _ => .after fun _ => inferInstance

instance trails_parseStep : Trails ps (parseStep v) := trails_read v (parseStep_eof v)

instance goes_parseStep : Goes (Behind []) ps (parseStep v) :=
  .accept _ _ inferInstance (.accept _ _ inferInstance inferInstance)

instance tracks_parseStep : Tracks ps (parseStep v) := keeps_of_goes _

instance adds_parseCompound : ∀ op? : Option Op, Adds 2 (parseCompound self v op?)
  | none => adds_parseStep v
  | some _ => adds_bind ..

instance tracks_parseCompound : ∀ op? : Option Op, Tracks ps (parseCompound self v op?)
  | none => tracks_parseStep v
  | some _ => .step fun _ => .trail inferInstance inferInstance

instance adds_parseChange : Adds 2 (parseChange self v) := .after fun _ => by
  split
  · exact .after fun _ => inferInstance
  · exact .after fun _ => inferInstance

instance trails_parseChange : Trails ps (parseChange self v) := trails_read v (parseChange_eof self v)

instance goes_parseChange : Goes (Behind []) ps (parseChange self v) :=
  .accept _ _ (.trail inferInstance inferInstance) (.acceptCompound inferInstance inferInstance)

instance tracks_parseChange : Tracks ps (parseChange self v) := keeps_of_goes _

end

instance tracks_parseVariable (name : String) (canAssign : Bool) :
    Tracks ps (parseVariable self name canAssign) :=
  .step fun _ => inferInstance

instance tracks_parseOpening (o : Opening) (canAssign : Bool) :
    Tracks ps (parseOpening self o canAssign) :=
  keeps_previous fun t => by
    cases o with
    | unary => exact .trail inferInstance inferInstance
    | number => dsimp only; split <;> infer_instance
    | _ => infer_instance

instance tracks_parseRow (bound : Nat) (l : Limit) (count : Nat) (g : Goal) [g.Proper]
    [Tracks ps (self g)] (x : Comp Unit)
    [Obeys KeepsComplaints x] [Paces ps x] [Dies x] : Tracks ps (parseRow self bound l count g x) :=
  .trail (.step fun _ => inferInstance) (.step inferInstance)

/-- Each operator, and what stands behind it. -/
instance tracks_parseOperator : Tracks ps (parseOperator self) := keeps_previous fun t => by
  dsimp only
  split
  · infer_instance
  · exact .step fun _ => .step fun _ => .trail inferInstance inferInstance
  · exact .step fun _ => .step fun _ => .step fun _ => .step fun _ =>
      .trail inferInstance inferInstance
  · exact .step fun _ => .step fun _ => .cut fun _ => .step fun _ => .step fun _ => .step fun _ =>
      .trail inferInstance inferInstance
  · cases binaryOp? t.kind with
    | none => exact .trail inferInstance inferInstance
    | some op => exact .trail inferInstance inferInstance

omit [Grows self] follows in
theorem parseOperators_eof (h : S.Ended) (p : Precedence) [hp : p.Binds] (canAssign : Bool) :
    (parseOperators self p canAssign).run S = ((), S) := by
  show StateT.run (m := Id) (if p.rank ≤ (bindingPower S.current.kind).rank then _ else _) S = _
  rw [if_neg (by rw [h.eof]; exact Nat.not_le.2 hp.rank_pos)]
  cases canAssign with
  | false => rfl
  | true => exact (accept_eof .assign _ h).trans (acceptCompound_eof h _)

instance trails_parseOperators (p : Precedence) [p.Binds] (canAssign : Bool) :
    Trails ps (parseOperators self p canAssign) where
  run {S F} h _ _ _ := by
    have hspreads : Obeys Spreads (parseOperators self p canAssign) := inferInstance
    rw [parseOperators_eof self h.toEnded]
    exact .inr ⟨h.toEnded, h.le.trans (hspreads.run F).context⟩

instance goes_parseOperators (p : Precedence) [p.Binds] (canAssign : Bool) :
    Goes (Behind []) ps (parseOperators self p canAssign) := goes_get (fun _ _ => rfl) fun s => by
  split
  · exact .advance (.trail inferInstance inferInstance)
  · split <;> infer_instance

instance tracks_parseOperators (p : Precedence) [p.Binds] (canAssign : Bool) :
    Tracks ps (parseOperators self p canAssign) :=
  keeps_of_goes _

instance tracks_parseOperand (p : Precedence) [p.Binds] :
    ∀ o? : Option Opening, Tracks ps (parseOperand self p o?)
  | none => inferInstanceAs (Tracks ps (complain .noExpression))
  | some _ => .trail inferInstance inferInstance

instance tracks_parseExpression (p : Precedence) [p.Binds] : Tracks ps (parseExpression self p) := by
  have hgoes : Goes (Behind []) ps (parseExpression self p) := .advance (.step fun _ => inferInstance)
  exact keeps_of_goes _

/-! ## Statements -/

instance tracks_parsePrint : Tracks ps (parsePrint self) := keeps_check ..

instance paces_parseExpressionStatement : Paces ps (parseExpressionStatement self) :=
  .cut fun _ => inferInstance

instance paces_parseReturn : Paces ps (parseReturn self) := keeps_get (fun _ _ _ => rfl) fun _ =>
  .step fun _ => .accept _ _ inferInstance (goes_of_keeps _ (h := .cut fun _ => inferInstance))

instance paces_parseForCondition : Paces ps (parseForCondition self) :=
  .accept _ _ inferInstance (goes_of_keeps _ (h := .cut fun _ => inferInstance))

instance dies_parseForStep (start : Nat) : Dies (parseForStep self start) :=
  .after fun _ => .after fun _ => .bind fun _ => .step fun _ => .step fun _ => inferInstance

instance paces_parseForStep (start : Nat) : Paces ps (parseForStep self start) :=
  .step fun _ => .step fun _ => .trail (.step fun _ => .step fun _ => inferInstance)
    (.step (lags_of_dies _))

instance paces_parseForIncrement (start : Nat) : Paces ps (parseForIncrement self start) :=
  .accept _ _ inferInstance inferInstance

/-! ## Functions and variables -/

instance paces_countParameter : Paces ps countParameter :=
  .step fun _ => keeps_get (fun _ _ _ => rfl) fun _ => inferInstance

instance ends_parseParameters : Ends (.scope :: ps) (parseParameters self) :=
  .step fun _ => .step fun _ => .step fun _ => inferInstance

instance ends_parseNames : Ends (.scope :: ps) (parseNames self) := by
  have hnames : Dies (if (!false) = true then self .parameters else pure ()) :=
    (inferInstance : Dies (self .parameters))
  exact keeps_check ..

instance paces_parseInside : Paces [] (parseInside self) :=
  .step fun _ => .step fun _ => .cut fun _ => .step fun _ => inferInstance

/-- A function is begun, gone through and ended. -/
instance paces_inFunction (name : String) (x : Comp Unit) [hx : Paces [] x] :
    Paces ps (inFunction name x) where
  run {S F} h _ hc := by
    have hend : Obeys KeepsComplaints endFunction := inferInstance
    have hmid := (hend.run _).clean hc
    obtain ⟨-, hbegun⟩ := level_run (beginFunction name) h ((hx.keeps.run _).clean hmid)
    rcases hx.run hbegun (settled_beginFunction name F) hmid with ⟨-, hlevel⟩ | hcut | hno
    · exact .inl (level_run endFunction hlevel hc)
    · exact .inr (.inl ((hend.run _).cut hcut))
    · exact hno.elim
  keeps := @abreast_inFunction _ _ _ name x x hx.keeps

instance paces_parseFunction : Paces ps (parseFunction self) :=
  .step fun _ => .step fun _ => inferInstance

instance paces_parseFunctionDeclaration : Paces (.scope :: ps) (parseFunctionDeclaration self) :=
  .step fun _ => .step fun _ => .step fun _ => inferInstance

instance paces_top_parseFunctionDeclaration : Paces [.top] (parseFunctionDeclaration self) :=
  .step fun _ => .step fun _ => .step fun _ => inferInstance

instance ends_parseInitializer : Ends ps (parseInitializer self) := keeps_accept ..

instance paces_parseVariableDeclaration : Paces (.scope :: ps) (parseVariableDeclaration self) :=
  .step fun _ => .cut fun _ => inferInstance

instance paces_top_parseVariableDeclaration : Paces [.top] (parseVariableDeclaration self) :=
  .step fun _ => .cut fun _ => inferInstance

/-! ## Conditions and loops -/

variable [Bracket.AtRest ps]

instance paces_parseCondition (m : Missing) : Paces ps (parseCondition self m) :=
  .step fun _ => .cut fun _ => .step fun _ => inferInstance

instance tracks_parseLoop (next : Nat) (exit? : Option Nat) : Tracks ps (parseLoop self next exit?) :=
  .step fun _ => .trail inferInstance inferInstance

instance tracks_parseWhile : Tracks ps (parseWhile self) := .step fun _ => .step fun _ => inferInstance

instance paces_parseForStart : Paces (.scope :: ps) (parseForStart self) :=
  .step fun _ => .accept _ _ inferInstance (.accept _ _ inferInstance inferInstance)

/-- The body is the last of a loop. -/
instance tracks_parseFor : Tracks ps (parseFor self) :=
  .step fun _ => .step fun _ => .step fun _ => .step fun _ => .step fun _ =>
    .trail inferInstance inferInstance

omit follows in
theorem parseElse_behind {j j' : Nat} (h : S.Behind [] F) (hsober : F.Sober)
    (hsettled : F.context.shape.Settled []) (hj : S.context.shape.size + j' ≤ F.context.shape.size + j)
    (hc : ((parseElse self j').run F).2.Clean) :
    ((parseElse self j).run S).2.Behind [] ((parseElse self j').run F).2 := by
  obtain ⟨t, ht, hsober', hle⟩ : ∃ t : Compilation,
      (parseElse self j').run F = (patchJump j').run t ∧ t.Sober ∧
      F.context.shape ≤ t.context.shape := by
    unfold parseElse at hc ⊢
    rw [accept_bind] at hc ⊢
    split at hc <;> rename_i hkind
    · have hkeeps : Obeys KeepsComplaints (self .statement) := inferInstance
      have hpatch : Obeys KeepsComplaints (patchJump j') := inferInstance
      have hshifts : Shifts [] [] (self .statement) := inferInstance
      have hadvance : F.advance.Sober := (Compilation.keeps_advance F).sober hsober
      refine ⟨((self .statement).run F.advance).2, if_pos hkind, (hkeeps.run _).sober hadvance, ?_⟩
      have hle := hshifts.le hadvance ((hpatch.run _).clean hc)
        (Compilation.advance_context F ▸ hsettled)
      rwa [Compilation.advance_context F] at hle
    · exact ⟨F, if_neg hkind, hsober, le_rfl⟩
  have hS : (parseElse self j).run S = (patchJump j).run S := accept_eof .sinon _ h.toEnded
  rw [ht] at hc ⊢
  rw [hS]
  have hlimit := patchJump_limit hsober' hc
  have hsize : F.context.shape.size ≤ t.context.shape.size := hle.1
  obtain ⟨hended, hshape⟩ := patchJump_within (j := j) (s := S) (by omega)
  refine ⟨hended h.toEnded, ?_⟩
  show ((patchJump j).run S).2.context.shape ≤ _
  rw [hshape, Shape.close, (patchJump_within hlimit).2]
  exact le_trans h.le hle

instance trails_parseElse (done : Nat) : Trails ps (parseElse self done) where
  run h hsober hsettled hc :=
    .inr (parseElse_behind self h hsober (hsettled.weaken (Nat.zero_le _) nofun)
      (Nat.add_le_add_right h.le.1 done) hc)

instance tracks_parseElse (done : Nat) : Tracks ps (parseElse self done) := by
  have hgoes : Goes (Behind []) ps (parseElse self done) :=
    .accept _ _ (.trail inferInstance inferInstance) inferInstance
  exact keeps_of_goes _

instance tracks_parseOther (other : Nat) : Tracks ps (parseOther self other) :=
  .step fun _ => .step fun _ => inferInstance

instance trails_parseOther (other : Nat) : Trails ps (parseOther self other) where
  run {S F} h hsober hsettled hc := by
    have hidles : Idles (emitJump .jump) := inferInstance
    have hkeeps : Obeys KeepsComplaints (emitJump .jump) := inferInstance
    have hkeeps' : Obeys KeepsComplaints (patchSkip (some other)) := inferInstance
    have hrun : ∀ s : Compilation, (parseOther self other).run s =
      (parseElse self (s.context.shape.size + 1)).run
        ((patchSkip (some other)).run ((emitJump .jump).run s).2).2 := fun s => by
      rw [← (emitJump_shape .jump s).1]
      rfl
    rw [hrun] at hc ⊢
    rw [hrun]
    obtain ⟨-, hS⟩ := emitJump_shape .jump S
    obtain ⟨-, hF⟩ := emitJump_shape .jump F
    have hsober' := (hkeeps.run F).sober hsober
    have hlimit :=
      patchSkip_limit hsober'
      (((inferInstance : Obeys KeepsComplaints (parseElse self _)).run _).clean hc)
    have hle : S.context.shape.add 3 ≤ F.context.shape.add 3 := Shape.add_mono h.le 3
    obtain ⟨hended, hshape⟩ := @patchSkip_within ((emitJump .jump).run S).2 (some other) fun j hj =>
      le_trans (by rw [hS, hF]; exact hle.1) (hlimit j hj)
    obtain ⟨-, hshape'⟩ := patchSkip_within hlimit
    refine .inr (parseElse_behind self ⟨hended (hidles.run h.toEnded), ?_⟩
      ((hkeeps'.run _).sober hsober') ?_ ?_ hc)
    · rw [hshape, hshape', hS, hF]
      exact Shape.add_mono hle _
    · rw [hshape', hF]
      exact (hsettled.weaken (Nat.zero_le _) List.not_mem_nil).mono
        ((Shape.le_add _ 3).trans (Shape.le_add _ _))
    · rw [hshape, hshape', hS, hF]
      simp only [Shape.add]
      omega

instance tracks_parseIf : Tracks ps (parseIf self) := .step fun _ => .trail inferInstance inferInstance

/-! ## Choices -/

instance lags_parseCaseBody : Lags (Behind [.scope]) (.scope :: ps) (parseCaseBody self) where
  run {S F} h hsober hsettled hc := by
    have hshifts : Shifts [.scope] [.scope] (parseCaseBody self) := inferInstance
    have hS : (parseCaseBody self).run S = ((), S) := by
      show StateT.run (m := Id)
        (match S.current.kind with | .cas | .defaut | .rightBrace | .eof => _ | _ => _) S = _
      rw [h.eof]
      rfl
    obtain ⟨hclose, -⟩ :=
      List.forall₂_cons.1 (hshifts.run F hsober hc (hsettled.weaken (by simp) nofun)).2
    rw [hS]
    exact .inr ⟨h.toEnded, (Shape.close_mono [.scope] h.le).trans hclose⟩

instance keeps_parseCaseBody : Keeps (Behind [.scope]) (.scope :: ps) (parseCaseBody self) := by
  have hgoes : Goes (Behind [.scope]) (.scope :: ps) (parseCaseBody self) :=
    goes_get (fun _ _ => rfl) fun s => by
      split
      case h_5 => exact goes_of_keeps _ (h := .trail inferInstance inferInstance)
      all_goals infer_instance
  exact keeps_of_goes _

section

variable (c : Clauses)

instance paces_parseTest : Paces ps (parseTest self c) :=
  .step fun _ => .cut fun _ => .step fun _ => .step fun _ => inferInstance

instance tracks_finishClause : Tracks (.scope :: ps) (finishClause self c) :=
  .step fun _ => .step fun _ => inferInstance
instance paces_enterCase : Paces ps (enterCase c) := inferInstanceAs (Paces ps (complainIf _ _))

instance paces_enterDefault : Paces ps (enterDefault c) := .step fun _ => inferInstance

theorem enterCase_context (s : Compilation) : ((enterCase c).run s).2.context = s.context := by
  unfold enterCase
  cases c.sawDefault with
  | false => rfl
  | true => exact s.complainAt_context _ _

theorem enterDefault_context (s : Compilation) : ((enterDefault c).run s).2.context = s.context := by
  have hexpect : ∀ s : Compilation, ((expect .colon .defaultColon).run s).2.context = s.context :=
    fun s => by
    rw [expect_run]
    dsimp only
    split
    · exact s.advance_context
    · exact s.complainAt_context _ _
  unfold enterDefault
  cases c.sawDefault with
  | false => exact hexpect s
  | true => exact (hexpect _).trans (s.complainAt_context _ _)

variable (before : Comp Unit) (test : Comp (Option Nat)) (sawDefault : Bool)
  [Obeys KeepsComplaints before] [Obeys Spreads before] [Obeys KeepsComplaints test]
  [Obeys Spreads test]

instance paces_openClause [Paces ps before] [Paces ps test] :
    Paces ps (openClause c before test sawDefault) :=
  .step fun _ => .step fun _ => .step fun _ => .step fun _ => inferInstance

end

/-- Behind a body the jump into the next one is as near as in the longer text. -/
theorem finishClause_behind {c : Clauses} (h : S.Behind [.scope] F) (hsober : F.Sober)
    (hsettled : F.context.shape.Settled (.scope :: ps)) (hc : ((finishClause self c).run F).2.Clean) :
    ((finishClause self c).run S).2.Cut ∨
    ((finishClause self c).run S).2.Behind [] ((finishClause self c).run F).2 := by
  have hidles : Idles endScope := inferInstance
  have hkeeps : Obeys KeepsComplaints endScope := inferInstance
  have hshifts : Shifts (.scope :: ps) ps endScope := inferInstance
  have hidles' : Idles (emitJump .jump) := inferInstance
  have hkeeps' : Obeys KeepsComplaints (emitJump .jump) := inferInstance
  have hrun : ∀ s : Compilation, (finishClause self c).run s =
      (self (.clauses { c with fall? := some ((endScope.run s).2.context.shape.size + 1) })).run
        ((emitJump .jump).run (endScope.run s).2).2 := fun s => by
    rw [← (emitJump_shape .jump _).1]
    rfl
  rw [hrun] at hc ⊢
  rw [hrun]
  have hended : (endScope.run F).2.Clean :=
    (hkeeps'.run _).clean (((inferInstance : Obeys KeepsComplaints (self _)).run _).clean hc)
  have hsettled' := (hshifts.run F hsober hended hsettled).1.weaken (Nat.zero_le _) List.not_mem_nil
  have hle : (endScope.run S).2.context.shape ≤ (endScope.run F).2.context.shape := by
    rw [(endScope_shape S).2, (endScope_shape F).2]
    exact h.le
  obtain ⟨-, hS⟩ := emitJump_shape .jump (endScope.run S).2
  obtain ⟨-, hF⟩ := emitJump_shape .jump (endScope.run F).2
  refine follows.clausesBehind ⟨rfl, ?_⟩ ⟨hidles'.run (hidles.run h.toEnded), ?_⟩
    ((hkeeps'.run _).sober ((hkeeps.run F).sober hsober)) ?_ hc
  · rintro j ⟨⟩
    refine ⟨_, rfl, ?_⟩
    rw [hS, hF]
    simp only [Shape.add]
    omega
  · rw [hS, hF]
    exact Shape.add_mono hle 3
  · rw [hF]
    exact hsettled'.mono (Shape.le_add _ 3)

instance tracks_parseBody (c : Clauses) : Tracks (.scope :: ps) (parseBody self c) where
  run {S F} h hsettled hc := by
    have hbody : Keeps (Behind [.scope]) (.scope :: ps) (self .caseBody) := inferInstance
    have hshifts : Shifts (.scope :: ps) (.scope :: ps) (self .caseBody) := inferInstance
    have hfinish : Tracks (.scope :: ps) (finishClause self c) := inferInstance
    have hmid := (hfinish.keeps.run _).clean hc
    have hsettled' := (hshifts.run F h.sober hmid hsettled).1
    rcases hbody.run h hsettled hmid with ⟨-, hlevel⟩ | hcut | hbehind
    · exact hfinish.run hlevel hsettled' hc
    · exact .inr (.inl ((hfinish.keeps.run _).cut hcut))
    · exact .inr (finishClause_behind self hbehind ((hbody.keeps.run F).sober h.sober) hsettled' hc)

instance tracks_parseCase (c : Clauses) : Tracks ps (parseCase self c) := .step fun _ => inferInstance
instance tracks_parseDefault (c : Clauses) : Tracks ps (parseDefault self c) :=
  .step fun _ => inferInstance

/-! The jumps of the clauses before are aimed with the next clause, or at the end. -/

omit [Grows self] follows [Bracket.AtRest ps] in
theorem closeClauses_within {c : Clauses} {s : Compilation} (h : c.Within s.context.shape) :
    (s.Ended → ((do patchSkip c.skip?; patchJump? c.fall? : Comp Unit).run s).2.Ended) ∧
      ((do patchSkip c.skip?; patchJump? c.fall? : Comp Unit).run s).2.context.shape =
        s.context.shape.add (pops c.skip?) := by
  obtain ⟨hended, hshape⟩ := patchSkip_within h.skip
  obtain ⟨hended', hshape'⟩ := patchJump?_within (s := ((patchSkip c.skip?).run s).2) fun j hj => by
    rw [hshape]
    exact h.fall j hj
  exact ⟨fun hs => hended' (hended hs), hshape'.trans hshape⟩

section

variable {c : Clauses} {F : Compilation}

omit follows in
theorem openClause_within {before : Comp Unit} {test : Comp (Option Nat)} {sawDefault : Bool}
    [hkb : Obeys KeepsComplaints before] [hkt : Obeys KeepsComplaints test] [ht : Obeys Spreads test]
    (hbefore : (before.run F).2.context = F.context) (hsober : F.Sober)
    (hsettled : F.context.shape.Settled [])
    (hc : ((openClause c before test sawDefault >>= parseBody self).run F).2.Clean) :
    c.Within F.context.shape ∧ F.context.shape.add (pops c.skip?) ≤
      ((openClause c before test sawDefault >>= parseBody self).run F).2.context.shape := by
  let rest (skip? : Option Nat) : Comp Unit := do
    beginScope
    parseBody self { c with skip?, sawDefault }
  let begun := (before.run F).2
  let skipped := ((patchSkip c.skip?).run begun).2
  let tested := (test.run skipped).2
  let fallen := ((patchJump? c.fall?).run tested).2
  have hrun : (openClause c before test sawDefault >>= parseBody self).run F =
    (rest (test.run skipped).1).run fallen := rfl
  have hkeeps : ∀ skip?, Obeys KeepsComplaints (rest skip?) := fun skip? => by infer_instance
  have hshifts : ∀ skip?, Shifts [] [] (rest skip?) := fun skip? => by infer_instance
  have hks : Obeys KeepsComplaints (patchSkip c.skip?) := inferInstance
  have hkf : Obeys KeepsComplaints (patchJump? c.fall?) := inferInstance
  rw [hrun] at hc ⊢
  -- each part is clean, and so its jumps are within their limit
  have hfallen : fallen.Clean := ((hkeeps _).run _).clean hc
  have hskipped : skipped.Clean := (hkt.run _).clean ((hkf.run _).clean hfallen)
  have hbegun := (hkb.run F).sober hsober
  have htested := (hkt.run skipped).sober ((hks.run begun).sober hbegun)
  have hskip := patchSkip_limit hbegun hskipped
  have hfall := patchJump?_limit htested hfallen
  -- and the code only grows
  have hle : F.context.shape.add (pops c.skip?) ≤ tested.context.shape := by
    rw [← hbefore, ← (patchSkip_within hskip).2]
    exact (ht.run skipped).context
  have hshape : fallen.context.shape = tested.context.shape := (patchJump?_within hfall).2
  have hend := (hshifts _).le ((hkf.run tested).sober htested) hc
    (hshape ▸ hsettled.mono ((Shape.le_add _ _).trans hle))
  refine ⟨⟨fun j hj => hbefore ▸ hskip j hj, fun j hj => le_trans hle.1 (hfall j hj)⟩, hle.trans ?_⟩
  rw [← hshape]
  exact hend

omit follows in
theorem parseClauses_within (hsober : F.Sober) (hsettled : F.context.shape.Settled [])
    (hc : ((parseClauses self c).run F).2.Clean) :
    c.Within F.context.shape ∧ F.context.shape.add (pops c.skip?) ≤
    ((parseClauses self c).run F).2.context.shape := by
  have hadvance : F.advance.context = F.context := Compilation.advance_context F
  have hsober' : F.advance.Sober := (Compilation.keeps_advance F).sober hsober
  have hsettled' : F.advance.context.shape.Settled [] := hadvance ▸ hsettled
  simp only [parseClauses_run, accept_bind, if_true, Bool.false_eq_true, if_false] at hc ⊢
  split_ifs at hc ⊢ with hend hcase hdefault
  · have hkf : Obeys KeepsComplaints (patchJump? c.fall?) := inferInstance
    have hks : Obeys KeepsComplaints (patchSkip c.skip?) := inferInstance
    have hskip := patchSkip_limit hsober ((hkf.run _).clean hc)
    have hfall := patchJump?_limit ((hks.run F).sober hsober) hc
    rw [(patchSkip_within hskip).2] at hfall
    exact ⟨⟨hskip, hfall⟩, (closeClauses_within ⟨hskip, hfall⟩).2.ge⟩
  · rw [← hadvance]
    exact openClause_within self (enterCase_context c _) hsober' hsettled' hc
  · rw [← hadvance]
    exact openClause_within self (enterDefault_context c _) hsober' hsettled' hc
  · have hkeeps : Obeys KeepsComplaints (advance >>= fun _ => self (.clauses c)) := inferInstance
    exact absurd ((hkeeps.run _).clean hc) (hsober.complain _ _)

end

omit follows in
theorem parseClauses_behind {c c' : Clauses} (hnear : c.Near c' S F) (h : S.Behind [] F)
    (hsober : F.Sober)
    (hsettled : F.context.shape.Settled []) (hc : ((parseClauses self c').run F).2.Clean) :
    ((parseClauses self c).run S).2.Behind [] ((parseClauses self c').run F).2 := by
  obtain ⟨hwithin, hle⟩ := parseClauses_within self hsober hsettled hc
  have hsize : S.context.shape.size ≤ F.context.shape.size := h.le.1
  have hwithin' : c.Within S.context.shape := by
    refine ⟨fun j hj => hsize.trans (hwithin.skip j (hnear.skip ▸ hj)), fun j hj => ?_⟩
    obtain ⟨j', hj', hnear'⟩ := hnear.fall j hj
    have := hwithin.fall j' hj'
    rw [hnear.skip] at this
    omega
  obtain ⟨hended, hshape⟩ := closeClauses_within hwithin'
  rw [parseClauses_run self c S, if_pos (.inr h.eof)]
  refine ⟨hended h.toEnded, ?_⟩
  show Context.shape (StateT.run (m := Id) _ S).2.context ≤ _
  rw [hshape, ← hnear.skip]
  exact (Shape.add_mono h.le _).trans hle

instance trails_parseClauses (c : Clauses) : Trails ps (parseClauses self c) where
  run h hsober hsettled hc :=
    .inr (parseClauses_behind self ⟨rfl, fun j hj => ⟨j, hj, Nat.add_le_add_right h.le.1 j⟩⟩ h
      hsober (hsettled.weaken (Nat.zero_le _) List.not_mem_nil) hc)

instance goes_parseClauses (c : Clauses) : Goes (Behind []) ps (parseClauses self c) := by
  refine goes_of_run (fun k => if k = .rightBrace ∨ k = .eof then _ else _)
    (fun s => (parseClauses_run self c s).trans (apply_ite (StateT.run (m := Id) · s) _ _ _).symm)
    fun k => ?_
  split
  · infer_instance
  · exact .accept _ _ inferInstance (.accept _ _ inferInstance inferInstance)

instance tracks_parseClauses (c : Clauses) : Tracks ps (parseClauses self c) := keeps_of_goes _

instance paces_parseChosen : Paces ps (parseChosen self) := .step fun _ => .cut fun _ => inferInstance

instance paces_parseChoices : Paces ps (parseChoices self) := keeps_get (fun _ _ _ => rfl) fun _ =>
  .step fun _ => .trail inferInstance inferInstance

instance paces_parseSwitch : Paces ps (parseSwitch self) := by
  have := shifts_markReady_end ps
  exact .step fun _ => .step fun _ => .step fun _ => .step fun _ => .step fun _ => inferInstance

/-! ## Sentences -/

instance tracks_parseStatement : Tracks ps (parseStatement self) := by
  have hgoes : Goes (Behind []) ps (parseStatement self) := goes_get (fun _ _ => rfl) fun s => by
    split
    case h_10 => exact .advance (.step fun _ => .step fun _ => inferInstance)
    all_goals infer_instance
  exact keeps_of_goes _

end

/-! No complaint, no recovery. -/

theorem recoverIfPanicking_run {s : Compilation} (h : s.panicking = false) :
    recoverIfPanicking.run s = ((), s) := by
  show StateT.run (m := Id) (if s.panicking = true then _ else _) s = _
  rw [h]
  rfl

instance paces_recoverIfPanicking : Paces ps recoverIfPanicking where
  run {S F} h _ _ := by
    have hcalm : F.panicking = false := by rw [h.same]; exact h.calm
    rw [recoverIfPanicking_run h.calm, recoverIfPanicking_run hcalm]
    exact .inl ⟨rfl, h⟩

instance trails_recoverIfPanicking : Trails ps recoverIfPanicking where
  run {S F} h hsober _ hc := by
    have hkeeps : Obeys KeepsComplaints recoverIfPanicking := inferInstance
    rw [recoverIfPanicking_run h.calm, recoverIfPanicking_run (hsober ((hkeeps.run F).clean hc))]
    exact .inr h

section

variable (self : Recur) [Grows self] [Follows self]

instance tracks_parseSentence : Tracks (.scope :: ps) (parseSentence self) := by
  have hstatement : Tracks (.scope :: ps) (self .statement) := inferInstance
  have hgoes : Goes (Behind []) (.scope :: ps) (parseSentence self) :=
    goes_get (fun _ _ => rfl) fun s => by split <;> infer_instance
  exact keeps_of_goes _

instance tracks_top_parseSentence : Tracks [.top] (parseSentence self) := by
  have hgoes : Goes (Behind []) [.top] (parseSentence self) :=
    goes_get (fun _ _ => rfl) fun s => by split <;> infer_instance
  exact keeps_of_goes _

instance tracks_parseDeclaration : Tracks (.scope :: ps) (parseDeclaration self) :=
  .trail inferInstance inferInstance

instance tracks_top_parseDeclaration : Tracks [.top] (parseDeclaration self) :=
  .trail inferInstance inferInstance

instance paces_parseBlock : Paces (.scope :: ps) (parseBlock self) := by
  have hgoes : Goes (fun _ _ => False) (.scope :: ps) (parseBlock self) := by
    refine goes_of_run (fun k => if k = .rightBrace ∨ k = .eof then _ else _)
      (fun s => (parseBlock_run self s).trans (apply_ite (StateT.run (m := Id) · s) _ _ _).symm)
      fun k => ?_
    split <;> infer_instance
  exact keeps_of_goes _

instance follows_round : Follows (round self) where
  mortal := mortal_round self
  expression _ r _ := tracks_parseExpression self r
  operators _ r _ canAssign := tracks_parseOperators self r canAssign
  operatorsBehind _ r _ canAssign := trails_parseOperators self r canAssign
  arguments _ _ := tracks_parseRow self ..
  printed _ _ := tracks_parseRow self ..
  statement _ _ := tracks_parseStatement self
  declaration _ := tracks_parseDeclaration self
  sentence := tracks_top_parseDeclaration self
  block _ := paces_parseBlock self
  parameters _ := ends_parseParameters self
  caseBody _ := keeps_parseCaseBody self
  caseBodyBehind _ := lags_parseCaseBody self
  clauses _ _ c := tracks_parseClauses self c
  clausesBehind hnear h hsober hsettled hc :=
    .inr (parseClauses_behind self hnear h hsober hsettled hc)

end

instance follows_parseFrom (z : Recur) [Grows z] [Follows z] (fuel : Nat) :
    Follows (parseFrom z fuel) := by
  induction fuel with
  | zero => assumption
  | succ fuel ih => exact follows_round _

/-! ## Whole texts -/

instance grows_giveUp : Grows giveUp := by
  unfold giveUp
  refine ⟨⟨?_⟩, ⟨?_⟩, ?_, ?_, ?_, ?_, ?_, ?_, ?_⟩ <;> (intros; infer_instance)

instance follows_giveUp : Follows giveUp := by
  have hdies : Dies (complainHere .noExpression) := inferInstance
  unfold giveUp
  refine ⟨⟨?_⟩, ?_, ?_, ?_, ?_, ?_, ?_, ?_, ?_, ?_, ?_, ?_, ?_, ?_, fun _ hbehind _ _ _ =>
    .inl (hdies.run hbehind.toEnded)⟩ <;>
    (intros; infer_instance)

theorem program_ended (fuel : Nat) (h : S.Ended) :
    ((parseFrom giveUp fuel .program).run S).2.Cut ∨
    ((parseFrom giveUp fuel .program).run S).2.Clean := by
  cases fuel with
  | zero => exact .inl (h.complain h.eof _)
  | succ fuel =>
    right
    show ((parseProgram _).run S).2.Clean
    have hadvance : S.advance = { S with previous := S.current } := by
      unfold Compilation.advance
      simp only [h.eof, beq_self_eq_true, if_true]
    rw [parseProgram_run, if_pos h.eof]
    show S.advance.Clean
    rw [hadvance]
    exact h.clean

/-- **Sentence after sentence**, the shorter text keeps up with the longer one until it ends. -/
theorem program_follows (fuel : Nat) (h : S.Level F) (hsettled : F.context.shape.Settled [.top])
    (hc : ((parseFrom giveUp fuel .program).run F).2.Clean) :
    ((parseFrom giveUp fuel .program).run S).2.Cut ∨
    ((parseFrom giveUp fuel .program).run S).2.Clean := by
  induction fuel generalizing S F with
  | zero => exact absurd hc (h.sober.complain _ _)
  | succ fuel ih =>
    by_cases heof : S.current.kind = .eof
    · exact program_ended _ (h.ended heof)
    · have heof' : F.current.kind ≠ .eof := by rwa [h.current heof]
      have hrest : Obeys KeepsComplaints (parseFrom giveUp fuel .program) := inferInstance
      have hsentence : Tracks [.top] (parseFrom giveUp fuel .declaration) := inferInstance
      have hshifts : Shifts [.top] [.top] (parseFrom giveUp fuel .declaration) := inferInstance
      change ((parseProgram _).run F).2.Clean at hc
      show ((parseProgram _).run S).2.Cut ∨ ((parseProgram _).run S).2.Clean
      rw [parseProgram_run, if_neg heof'] at hc
      rw [parseProgram_run, if_neg heof]
      have hmid := (hrest.run _).clean hc
      rcases hsentence.run h hsettled hmid with ⟨-, hlevel⟩ | hcut | hbehind
      · exact ih hlevel (hshifts.run F h.sober hmid hsettled).1 hc
      · exact .inl ((hrest.run _).cut hcut)
      · exact program_ended fuel hbehind.toEnded

end Comp

/-- **A row of tokens that can go on is accepted, or said to end too early.** -/
theorem compileTokens_follows {before e g : List Token} (he : Ending e)
    (h : (compileTokens (before ++ g)).diagnostics = []) :
    (compileTokens (before ++ e)).diagnostics = [] ∨
    (compileTokens (before ++ e)).diagnostics.isIncomplete = true := by
  let fuel := 8 * ((before ++ g).length + 2) + 8 * ((before ++ e).length + 2)
  have hrun : ∀ ts : List Token, 8 * (ts.length + 2) ≤ fuel → (compileTokens ts).diagnostics =
      ((Comp.parseFrom Comp.giveUp fuel .program).run
        (Compilation.start ts).advance).2.diagnostics.toList := fun ts hfuel =>
    congrArg Compiled.diagnostics (compileTokens_eq_parseFrom Comp.giveUp ts hfuel)
  rw [hrun _ (Nat.le_add_right _ _), Array.toList_eq_nil_iff] at h
  rw [hrun _ (Nat.le_add_left _ _), Array.toList_eq_nil_iff]
  have hstart : (Compilation.start (before ++ e)).Level (.start (before ++ g)) :=
    ⟨rfl, rfl, rfl, .inr ⟨rfl, before, e, g, he, rfl, rfl⟩⟩
  have hkeeps : Comp.Obeys Compilation.KeepsComplaints (Comp.parseFrom Comp.giveUp fuel .program) :=
    inferInstance
  have hsettled : (Compilation.start (before ++ g)).advance.context.shape.Settled [.top] := by
    rw [Compilation.advance_context]
    refine ⟨?_, Nat.le_refl _, fun _ => rfl⟩
    rw [if_neg nofun]
    exact ⟨[0], rfl, List.pairwise_singleton _ _, fun _ hd => (List.mem_singleton.1 hd).le⟩
  have hincomplete : ∀ s : Compilation, s.Cut → Diagnostics.isIncomplete s.diagnostics.toList =
    true := fun s ⟨d, hd, hcut⟩ =>
    List.any_eq_true.2 ⟨d, Array.mem_toList_iff.2 hd, hcut⟩
  rcases hstart.advance nofun ((hkeeps.run _).clean h) with hlevel | hcut
  · exact (Comp.program_follows fuel hlevel hsettled h).symm.imp id (hincomplete _)
  · exact .inr (hincomplete _ ((hkeeps.run _).cut hcut))

end Parlance
