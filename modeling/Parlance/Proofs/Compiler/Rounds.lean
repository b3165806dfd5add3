/-
  The parser has rounds enough.
-/
import Parlance.Proofs.Compiler.Abreast

namespace Parlance

namespace Compilation

/-- The same state, with `n` tokens left at most. -/
def Within (n : Nat) (_ : Unit) (s t : Compilation) : Prop := t = s ∧ s.left ≤ n

instance lasting_left (n : Nat) : Lasting fun (_ : Unit) s => s.left ≤ n where
  write _ _ _ h := h
  complain c h := Nat.le_trans (Nat.le_of_eq (complainAt_left _ _ c)) h
  complainHere c h := Nat.le_trans (Nat.le_of_eq (complainAt_left _ _ c)) h
  advance h := Nat.le_trans (Nat.le_trans (advance_left _) (Nat.sub_le _ _)) h
  calm h := h

instance match_within (n : Nat) : Match (Within n) :=
  inferInstanceAs (Match (Shared fun (_ : Unit) s => s.left ≤ n))

end Compilation

open Compilation (Within)

namespace Comp

variable {α β : Type} {n m k : Nat}

/-- The parser, for so many rounds at most, and `z` after them. -/
def parseFrom (z : Recur) : Nat → Recur
  | 0 => z
  | fuel + 1 => round (parseFrom z fuel)

/-- What is left to do when the rounds are over: a complaint. -/
def giveUp : Recur := fun _ => complainHere .noExpression

theorem parse_eq_parseFrom (fuel : Nat) : parse fuel = parseFrom (fun _ => pure ()) fuel := by
  induction fuel with
  | zero => rfl
  | succ fuel ih =>
    funext goal
    rw [parse, parseFrom, ih]

theorem parseFrom_add (z : Recur) (fuel more : Nat) :
    parseFrom z (more + fuel) = parseFrom (parseFrom z more) fuel := by
  induction fuel with
  | zero => rfl
  | succ fuel ih => rw [← Nat.add_assoc, parseFrom, parseFrom, ih]

/-- With `n` tokens left the moves do the same, and leave `m` at most. -/
def Passes (n m : Nat) (x y : Comp α) : Prop :=
  ∀ s, s.left ≤ n → y.run s = x.run s ∧ (x.run s).2.left ≤ m

theorem Passes.of_abreast {x y : Comp α} [h : Abreast (Within n) x y] : Passes n n x y := fun _ hs =>
  have hrun := h.run (i := ()) ⟨rfl, hs⟩
  ⟨Prod.ext hrun.1 hrun.2.1, hrun.2.2⟩

theorem Passes.abreast {x y : Comp α} (h : Passes n n x y) : Abreast (Within n) x y :=
  ⟨fun {_ s t} hs => by
  rw [hs.1, (h s hs.2).1]
  exact ⟨rfl, rfl, (h s hs.2).2⟩⟩

theorem Passes.bind {x y : Comp α} {f g : α → Comp β} (hx : Passes n m x y)
    (hf : ∀ a, Passes m k (f a) (g a)) : Passes n k (x >>= f) (y >>= g) := fun s hs => by
  obtain ⟨heq, hleft⟩ := hx s hs
  show (g (y.run s).1).run (y.run s).2 = (f (x.run s).1).run (x.run s).2 ∧ _
  rw [heq]
  exact hf _ _ hleft

theorem Passes.mono {x y : Comp α} (h : Passes n m x y) (hm : m ≤ k) : Passes n k x y :=
  fun s hs => ⟨(h s hs).1, Nat.le_trans (h s hs).2 hm⟩

theorem passes_advance : Passes n (n - 1) advance advance :=
  fun s hs => ⟨rfl, Nat.le_trans s.advance_left (Nat.sub_le_sub_right hs 1)⟩

theorem Passes.get {f g : Compilation → Comp β} (h : ∀ s, s.left ≤ n → Passes n m (f s) (g s)) :
    Passes n m (MonadState.get >>= f) (MonadState.get >>= g) := fun s hs => h s hs s hs

theorem run_bind (x : Comp α) (f : α → Comp β) (s : Compilation) :
    (x >>= f).run s = (f (x.run s).1).run (x.run s).2 := rfl

theorem Passes.accept {k : Token.Kind} (hk : k ≠ .eof) {x x' y y' : Comp β}
    (hx : 0 < n → Passes (n - 1) m x x') (hy : Passes n m y y') :
    Passes n m (accept k >>= fun b => if b then x else y)
    (accept k >>= fun b => if b then x' else y') := fun s hs => by
  rw [run_bind, run_bind, accept_run]
  by_cases hkind : s.current.kind = k
  · have hpos := Nat.lt_of_lt_of_le (Compilation.left_pos (hkind ▸ hk)) hs
    simp only [if_pos hkind, if_true]
    exact hx hpos _ (Nat.le_trans s.advance_left (Nat.sub_le_sub_right hs 1))
  · simp only [if_neg hkind, Bool.false_eq_true, if_false]
    exact hy _ hs

end Comp

/-- How many rounds a goal takes at most with `n` tokens left. A goal that asks for another one
before it passes over a token stands higher than that one. -/
def Goal.rounds (n : Nat) : Goal → Nat
  | .expression _ | .operators _ _ | .parameters | .clauses _ => 4 * n + 1
  | .statement | .printed _ | .arguments _ => 4 * n + 2
  | .declaration => 4 * n + 3
  | .program | .block | .caseBody => 4 * n + 4

/-- How many tokens are left after a goal at most: a sentence or an expression passes over one. -/
def Goal.leaves (n : Nat) : Goal → Nat
  | .expression _ | .statement | .declaration => n - 1
  | _ => n

theorem Goal.rounds_le (n : Nat) (g : Goal) : g.rounds n ≤ 4 * n + 4 := by
  cases g <;> simp only [rounds] <;> omega

theorem Goal.leaves_le (n : Nat) (g : Goal) : g.leaves n ≤ n := by
  cases g <;> simp [leaves]

namespace Comp

/-! ## Where rows end -/

theorem parseBlock_run (self : Recur) (s : Compilation) : (parseBlock self).run s =
      if s.current.kind = .rightBrace ∨
        s.current.kind = .eof then (expect .rightBrace .blockBrace).run s
      else (do self .declaration; self .block : Comp Unit).run s := by
  show StateT.run (m := Id)
    (if (s.current.kind == .rightBrace || s.current.kind == .eof) = true then _ else _) s = _
  simp only [Bool.or_eq_true, beq_iff_eq]
  split <;> rfl

theorem parseProgram_run (self : Recur) (s : Compilation) : (parseProgram self).run s =
      if s.current.kind = .eof then advance.run s else
      (do self .declaration; self .program : Comp Unit).run s := by
  unfold parseProgram
  rw [run_bind, accept_run]
  split <;> rfl

theorem parseClauses_run (self : Recur) (c : Clauses) (s : Compilation) : (parseClauses self c).run s =
      if s.current.kind = .rightBrace ∨ s.current.kind = .eof then
        (do patchSkip c.skip?; patchJump? c.fall? : Comp Unit).run s
      else (do
        if ← accept .cas then parseCase self c
        else if ← accept .defaut then parseDefault self c
        else
          complainHere .noClause
          advance
          self (.clauses c) : Comp Unit).run s := by
  show StateT.run (m := Id)
    (if (s.current.kind == .rightBrace || s.current.kind == .eof) = true then _ else _) s = _
  simp only [Bool.or_eq_true, beq_iff_eq]
  split <;> rfl

/-! ## Where texts begin -/

section

variable {α β : Type}

/-- The token before does not show. -/
def Fresh (x : Comp α) : Prop := ∀ s t, x.run { s with previous := t } = x.run s

theorem fresh_advance : Fresh advance := fun _ _ => rfl

theorem Fresh.bind {x : Comp α} {f : α → Comp β} (hx : Fresh x) : Fresh (x >>= f) := fun s t => by
  rw [run_bind, run_bind, hx]

theorem Fresh.get {f : Compilation → Comp α} (heq : ∀ s t, f { s with previous := t } = f s)
    (hf : ∀ s, Fresh (f s)) : Fresh (MonadState.get >>= f) := fun s t => by
  show (f _).run _ = (f s).run s
  rw [heq]
  exact hf s s t

theorem fresh_statement (z : Recur) (fuel : Nat) : Fresh (parseFrom z (fuel + 2) .statement) :=
  .get (fun _ _ => rfl) fun s => by
    split
    case h_11 =>
      exact Fresh.bind (x := parseFrom z (fuel + 1) (.expression .assignment)) fresh_advance.bind
    all_goals exact fresh_advance.bind

theorem fresh_declaration (z : Recur) (fuel : Nat) : Fresh (parseFrom z (fuel + 3) .declaration) := by
  have hsentence : Fresh (parseSentence (parseFrom z (fuel + 2))) := .get (fun _ _ => rfl) fun s => by
    split
    case h_3 => exact fresh_statement z fuel
    all_goals exact fresh_advance.bind
  exact hsentence.bind

/-- What stands before a text does not show. -/
theorem fresh_program (z : Recur) (fuel : Nat) : Fresh (parseFrom z (fuel + 4) .program) :=
  fun s t => by
  show (parseProgram _).run _ = (parseProgram _).run _
  rw [parseProgram_run, parseProgram_run]
  split
  · rfl
  · exact (fresh_declaration z fuel).bind s t

end

/-! ## Goals -/

/-- What the parts of a round may rely on: with `n` tokens left, goals below `bound`; with fewer,
all goals. -/
structure Rounds (n bound : Nat) (p q : Recur) : Prop where
  here : ∀ (g : Goal) [g.Proper], g.rounds n < bound → Passes n (g.leaves n) (p g) (q g)
  later : 0 < n → Fellows (Within (n - 1)) p q

section

variable {n bound : Nat} {self self' : Recur} (h : Rounds n bound self self')

theorem Rounds.abreast (h : Rounds n bound self self') (g : Goal) [g.Proper]
    (hg : g.rounds n < bound) :
    Abreast (Within n) (self g) (self' g) := ((h.here g hg).mono (g.leaves_le n)).abreast

include h

theorem passes_expression (p : Precedence) [p.Binds] :
    Passes n (n - 1) (parseExpression self p) (parseExpression self' p) := by
  intro s hs
  have hleft := Nat.le_trans s.advance_left (Nat.sub_le_sub_right hs 1)
  by_cases hkind : s.current.kind = .eof
  · -- nothing begins with the end of the text
    show StateT.run (m := Id) (parseOperand self' p (opening? s.advance.previous.kind)) s.advance =
      StateT.run (m := Id) (parseOperand self p (opening? s.advance.previous.kind)) s.advance ∧
      (StateT.run (m := Id) (parseOperand self p (opening? s.advance.previous.kind))
        s.advance).2.left ≤ _
    rw [s.advance_previous, hkind]
    exact ⟨rfl, Nat.le_trans (Nat.le_of_eq (Compilation.complainAt_left _ _ _)) hleft⟩
  · have := h.later (Nat.lt_of_lt_of_le (Compilation.left_pos hkind) hs)
    refine (passes_advance.bind fun _ => Passes.of_abreast (h := ?_)) s hs
    exact abreast_previous (f := fun t => parseOperand self p (opening? t.kind))
      (g := fun t => parseOperand self' p (opening? t.kind))
      fun t u hkind _ => by rw [hkind]; infer_instance

theorem passes_operators (p : Precedence) [hp : p.Binds] (canAssign : Bool) :
    Passes n n (parseOperators self p canAssign) (parseOperators self' p canAssign) := by
  refine .get fun s hs => ?_
  split
  · rename_i hrank
    have hkind : s.current.kind ≠ .eof := fun hk => by
      rw [hk] at hrank
      exact absurd hrank (Nat.not_le.2 hp.rank_pos)
    have := h.later (Nat.lt_of_lt_of_le (Compilation.left_pos hkind) hs)
    exact (passes_advance.bind fun _ => .of_abreast).mono (Nat.sub_le _ _)
  · exact .of_abreast

/-- A row goes on behind a comma. -/
theorem passes_more (g : Goal) [g.Proper] (x : Comp Unit) [∀ k, Abreast (Within k) x x] :
    Passes n n (accept .comma >>= fun more => if more then self g else x)
      (accept .comma >>= fun more => if more then self' g else x) :=
  .accept (by decide) (fun hn => have := h.later hn; Passes.of_abreast.mono (Nat.sub_le _ _))
    .of_abreast

theorem passes_parseRow (hbound : 4 * n + 1 < bound) (most : Nat) (l : Limit) (count : Nat)
    (g : Goal) [g.Proper] (x : Comp Unit)
    [∀ k, Abreast (Within k) x x] :
    Passes n n (parseRow self most l count g x) (parseRow self' most l count g x) := by
  have := h.abreast (.expression .assignment) hbound
  have := (passes_more h g x).abreast
  exact .of_abreast (h := .step fun _ => .step fun _ => inferInstance)

theorem passes_parameters : Passes n n (parseParameters self) (parseParameters self') := by
  have := (passes_more h .parameters (pure ())).abreast
  exact .of_abreast (h := .step fun _ => .step fun _ => inferInstance)

theorem passes_clauses (c : Clauses) : Passes n n (parseClauses self c) (parseClauses self' c) := by
  intro s hs
  rw [parseClauses_run, parseClauses_run]
  split
  · exact Passes.of_abreast s hs
  · rename_i hkind
    have := h.later (Nat.lt_of_lt_of_le (Compilation.left_pos fun hk => hkind (.inr hk)) hs)
    have hskip : Passes n n (do
        complainHere .noClause
        advance
        self (.clauses c)) (do
        complainHere .noClause
        advance
        self' (.clauses c)) :=
      Passes.of_abreast.bind fun _ => (passes_advance.bind fun _ => .of_abreast).mono (Nat.sub_le _ _)
    have hdefault := Passes.accept (k := .defaut) (by decide)
      (fun _ => (Passes.of_abreast (x := parseDefault self c) (y := parseDefault self' c)).mono
        (Nat.sub_le n 1)) hskip
    exact Passes.accept (by decide) (fun _ => Passes.of_abreast.mono (Nat.sub_le _ _)) hdefault s hs

theorem passes_statement (hbound : 4 * n + 1 < bound) :
    Passes n (n - 1) (parseStatement self) (parseStatement self') := by
  have hexpression : Passes n (n - 1) (parseExpressionStatement self)
    (parseExpressionStatement self') :=
    (h.here (.expression .assignment) hbound).bind fun _ => .of_abreast
  refine .get fun s hs => ?_
  by_cases hkind : s.current.kind = .eof
  · rw [hkind]
    exact hexpression
  · have := h.later (Nat.lt_of_lt_of_le (Compilation.left_pos hkind) hs)
    split
    case h_11 => exact hexpression
    all_goals exact passes_advance.bind fun _ => .of_abreast

theorem passes_sentence (hbound : 4 * n + 2 < bound) :
    Passes n (n - 1) (parseSentence self) (parseSentence self') := by
  have hstatement : Passes n (n - 1) (self .statement) (self' .statement) := h.here .statement hbound
  refine .get fun s hs => ?_
  by_cases hkind : s.current.kind = .eof
  · rw [hkind]
    exact hstatement
  · have := h.later (Nat.lt_of_lt_of_le (Compilation.left_pos hkind) hs)
    split
    case h_3 => exact hstatement
    all_goals exact passes_advance.bind fun _ => .of_abreast

theorem passes_declaration (hbound : 4 * n + 2 < bound) :
    Passes n (n - 1) (parseDeclaration self) (parseDeclaration self') :=
  (passes_sentence h hbound).bind fun _ => .of_abreast

theorem passes_row (hbound : 4 * n + 3 < bound) (hn : 0 < n) (g : Goal) [g.Proper] :
    Passes n n (self .declaration >>= fun _ => self g) (self' .declaration >>= fun _ => self' g) := by
  have := h.later hn
  have hdeclaration : Passes n (n - 1) (self .declaration) (self' .declaration) :=
    h.here .declaration hbound
  exact (hdeclaration.bind fun _ => .of_abreast).mono (Nat.sub_le n 1)

theorem passes_block (hbound : 4 * n + 3 < bound) :
    Passes n n (parseBlock self) (parseBlock self') := by
  intro s hs
  rw [parseBlock_run, parseBlock_run]
  split
  · exact Passes.of_abreast s hs
  · rename_i hkind
    have hn := Nat.lt_of_lt_of_le (Compilation.left_pos fun hk => hkind (.inr hk)) hs
    exact passes_row h hbound hn .block s hs

theorem passes_program (hbound : 4 * n + 3 < bound) :
    Passes n n (parseProgram self) (parseProgram self') := by
  intro s hs
  rw [parseProgram_run, parseProgram_run]
  split
  · exact Passes.of_abreast (x := advance) s hs
  · rename_i hkind
    exact passes_row h hbound (Nat.lt_of_lt_of_le (Compilation.left_pos hkind) hs) .program s hs

theorem passes_caseBody (hbound : 4 * n + 3 < bound) :
    Passes n n (parseCaseBody self) (parseCaseBody self') := by
  refine .get fun s hs => ?_
  by_cases hkind : s.current.kind = .eof
  · rw [hkind]
    exact .of_abreast
  · have hn := Nat.lt_of_lt_of_le (Compilation.left_pos hkind) hs
    split
    case h_5 => exact passes_row h hbound hn .caseBody
    all_goals exact .of_abreast

theorem passes_round (g : Goal) [hproper : g.Proper] (hbound : g.rounds n ≤ bound) :
    Passes n (g.leaves n) (round self g) (round self' g) := by
  cases g with
  | program => exact passes_program h hbound
  | declaration => exact passes_declaration h hbound
  | statement => exact passes_statement h hbound
  | block => exact passes_block h hbound
  | expression p =>
    have : p.Binds := ⟨hproper.binds⟩
    exact passes_expression h p
  | operators p canAssign =>
    have : p.Binds := ⟨hproper.binds⟩
    exact passes_operators h p canAssign
  | printed count =>
    exact passes_parseRow h hbound 255 .printed count (.printed (count + 1)) (finishPrint (count + 1))
  | arguments count =>
    exact passes_parseRow h hbound maxArguments .arguments count (.arguments (count + 1))
      (finishCall (count + 1))
  | parameters => exact passes_parameters h
  | clauses c => exact passes_clauses h c
  | caseBody => exact passes_caseBody h hbound

end

/-- With rounds enough, what comes after them does not show. -/
theorem parseFrom_passes (z z' : Recur) (fuel : Nat) {n : Nat} (g : Goal) [g.Proper]
    (hfuel : g.rounds n ≤ fuel) :
    Passes n (g.leaves n) (parseFrom z fuel g) (parseFrom z' fuel g) := by
  induction fuel generalizing n g with
  | zero => exact absurd hfuel (by cases g <;> simp [Goal.rounds])
  | succ fuel ih =>
    have hrounds : Rounds n (fuel + 1) (parseFrom z fuel) (parseFrom z' fuel) :=
      { here := fun g _ hg => ih g (Nat.le_of_lt_succ hg)
        later := fun hn => ⟨fun g' _ =>
          ((ih g' (by
            have := g'.rounds_le (n - 1)
            have : 4 * n + 1 ≤ g.rounds n := by cases g <;> simp [Goal.rounds]
            omega)).mono (g'.leaves_le _)).abreast⟩ }
    exact passes_round hrounds g hfuel

end Comp

/-- **Neither the number of rounds nor what comes after them shows in a compilation.** -/
theorem compileTokens_eq_parseFrom (z : Recur) (ts : List Token) {fuel : Nat}
    (hfuel : 8 * (ts.length + 2) ≤ fuel) :
    compileTokens ts = .ofRun ((Comp.script (Comp.parseFrom z fuel)).run (.start ts)) := by
  obtain ⟨more, rfl⟩ := Nat.le.dest hfuel
  rw [compileTokens, Comp.parse_eq_parseFrom, Nat.add_comm _ more, Comp.parseFrom_add]
  have hkind : (Compilation.start ts).current.kind ≠ .eof := Token.Kind.noConfusion
  have hstart : (Compilation.start ts).left ≤ ts.length + 1 := Nat.le_of_eq (if_neg hkind)
  have hprogram :=
    Comp.parseFrom_passes (fun _ => pure ()) (Comp.parseFrom z more) (8 * (ts.length + 2))
    (n := ts.length + 1) .program (by simp only [Goal.rounds]; omega)
  have hscript : Comp.Passes (ts.length + 1) (ts.length + 1) _ _ :=
    (Comp.Passes.of_abreast (x := Comp.advance) (y := Comp.advance)).bind fun _ =>
      hprogram.bind fun _ => Comp.Passes.of_abreast (x := Comp.finishFunction)
        (y := Comp.finishFunction)
  exact congrArg Compiled.ofRun (hscript _ hstart).1.symm

end Parlance
