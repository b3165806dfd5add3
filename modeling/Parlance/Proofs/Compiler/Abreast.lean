/-
  Two compilations side by side.

  That moves go abreast is found by instances: one for each move, by the steps that it is made of.
-/
import Parlance.Proofs.Compiler.Shapes

namespace Parlance

/-- Found by computing `b`. -/
class IsTrue (b : Bool) : Prop where
  eq : b = true

instance isTrue_true : IsTrue true := ⟨rfl⟩

/-- The step adds a literal, or begins or ends a function. -/
def Build.Literal : Build → Prop
  | .constant (.native _) | .constant (.function _) => False
  | _ => True

/-- The token neither begins nor ends a block, declares no function, and is not the end of the
text. -/
@[reducible]
def Token.Kind.isPlain : Token.Kind → Bool
  | .leftBrace | .rightBrace | .fonction | .eof | .error => false
  | _ => true

/-- A function without its scopes. -/
def Context.core (c : Context) : Option String × Nat × Chunk Constant := (c.name, c.arity, c.chunk)

/-- `c'` is the function `c` with more code, of the line `line`. -/
structure Context.Adds (line : Int) (c c' : Context) : Prop where
  shape : c.shape ≤ c'.shape
  name : c'.name = c.name
  arity : c'.arity = c.arity
  lines : ∃ n, c'.chunk.lines = c.chunk.lines ++ Array.replicate n line
  constants : c'.chunk.constants = c.chunk.constants

/-- The functions as they are after a name has been looked up in those around. -/
abbrev Compilation.after (s : Compilation) (r : Resolution) : Compilation :=
  { s with context := r.inner, around := r.around }

/-- The function with one more constant. -/
def Context.addConstant (c : Context) (k : Constant) : Context :=
  { c with chunk := c.chunk.addConstant k }

/-- The heap is told of a constant of `c`, and the function is `c'` with it. -/
inductive Context.Pools (c : Context) : Build → Context → Prop
  | literal {k : Constant} (literal : (Build.constant k).Literal) :
      c.Pools (.constant k) (c.addConstant k)
  | known {name : String} {i : Nat} (found : c.chunk.firstIndex? (·.isText name) = some i) :
      c.Pools (.name name i) c
  | named {name : String} (missing : c.chunk.firstIndex? (·.isText name) = none) :
      c.Pools (.name name c.chunk.constants.size) (c.addConstant (.text name))

namespace Context.Pools

variable {c c' : Context} {b : Build}

theorem literal_build (h : c.Pools b c') : b.Literal := by
  cases h with
  | literal h => exact h
  | _ => trivial

theorem shape_eq (h : c.Pools b c') : c'.shape = c.shape := by cases h <;> rfl

end Context.Pools

namespace Compilation

/-! ## The way to the end of the text -/

/-- The number of tokens before the end of the text. -/
def left (s : Compilation) : Nat := if s.current.kind = .eof then 0 else s.rest.length + 1

/-! A complaint moves no token. -/

section

variable (s : Compilation) (t : Token) (c : Complaint)

theorem complainAt_current : (s.complainAt t c).current = s.current := by
    unfold complainAt; split <;> rfl
theorem complainAt_previous : (s.complainAt t c).previous = s.previous := by
    unfold complainAt; split <;> rfl
theorem complainAt_rest : (s.complainAt t c).rest = s.rest := by unfold complainAt; split <;> rfl

end

theorem complainAt_left (s : Compilation) (t : Token) (c : Complaint) :
    (s.complainAt t c).left = s.left := by
  rw [left, complainAt_current, complainAt_rest, left]

theorem fetch_left (s : Compilation) (ts : List Token) : (s.fetch ts).left ≤ ts.length := by
  induction ts generalizing s with
  | nil => exact Nat.le_of_eq (if_pos rfl)
  | cons t ts ih =>
    rw [fetch]
    split
    · exact Nat.le_succ_of_le (ih _)
    · unfold left
      split <;> simp

theorem advance_left (s : Compilation) : s.advance.left ≤ s.left - 1 := by
  unfold advance
  dsimp only
  split
  · rename_i h
    exact Nat.le_of_eq ((if_pos (eq_of_beq h)).trans (by rw [left, if_pos (eq_of_beq h)]))
  · rename_i h
    have hleft : s.left = s.rest.length + 1 := if_neg fun hk => h (beq_iff_eq.2 hk)
    rw [hleft]
    exact fetch_left _ _

theorem left_le (s : Compilation) : s.left ≤ s.rest.length + 2 := by
  unfold left
  split <;> omega

theorem left_pos {s : Compilation} (h : s.current.kind ≠ .eof) : 0 < s.left := by
  rw [left, if_neg h]
  exact Nat.succ_pos _

theorem fetch_previous (s : Compilation) (ts : List Token) : (s.fetch ts).previous = s.previous := by
  induction ts generalizing s with
  | nil => rfl
  | cons t ts ih =>
    rw [fetch]
    split
    · rw [ih, complainAt_previous]
    · rfl

theorem advance_previous (s : Compilation) : s.advance.previous = s.current := by
  unfold advance
  dsimp only
  split
  · rfl
  · exact fetch_previous _ _

end Compilation

/-! ## Related states -/

section

variable {ι : Type} (A : ι → Compilation → Compilation → Prop)

/-- From related states the moves come to the same result and to related states. -/
class Comp.Abreast {α : Type} (x y : Comp α) : Prop where
  run : ∀ {i} {s t : Compilation}, A i s t → (y.run t).1 = (x.run s).1 ∧ A i (x.run s).2 (y.run t).2

abbrev Comp.Kept {α : Type} (x : Comp α) : Prop := Abreast A x x

namespace Compilation

/-- Related states have the same functions under way and the same token before, as far as code
shows. -/
class Seen : Prop where
  context {i s t} : A i s t → t.context = s.context
  around {i s t} : A i s t → t.around = s.around
  builds {i s t} : A i s t → t.builds = s.builds
  text {i s t} : A i s t → t.previous.text = s.previous.text
  line {i s t} : A i s t → t.previous.location.line = s.previous.location.line
  clean {i s t} : A i s t → t.diagnostics.isEmpty = s.diagnostics.isEmpty
  complain {i s t} (c) : A i s t → A i (s.complainAt s.previous c) (t.complainAt t.previous c)

/-- They stay related as code is added. -/
class Coded : Prop extends Seen A where
  grow {i s t} {c : Context} : A i s t → s.context.Adds s.previous.location.line c →
    A i { s with context := c } { t with context := c }
  capture {i s t} {name} {r : Resolution} : A i s t → Parlance.capture name s.context s.around = r →
    A i (s.after r) (t.after r)
  pool {i s t} {b} {c : Context} : A i s t → s.context.Pools b c →
    A i { s with context := c, builds := s.builds.push b }
    { t with context := c, builds := t.builds.push b }

/-- They stay related as the names and scopes of a function change. -/
class Scopes : Prop extends Coded A where
  edit {i s t} {c : Context} : A i s t → c.core = s.context.core →
    A i { s with context := c } { t with context := c }

/-- They have tokens of the same kinds ahead. -/
class Ahead : Prop extends Seen A where
  kind {i s t} : A i s t → t.current.kind = s.current.kind
  before {i s t} : A i s t → t.previous.kind = s.previous.kind
  panicking {i s t} : A i s t → t.panicking = s.panicking
  complainHere {i s t} (c) : A i s t → A i (s.complainAt s.current c) (t.complainAt t.current c)

/-- They stay related behind a plain token, and behind a token that is not as it should be. -/
class Heard : Prop extends Coded A, Ahead A where
  pass {i s t} : A i s t → s.current.kind.isPlain = true → A i s.advance t.advance
  stumble {i s t} (c) : A i s t →
    A i (s.advance.complainAt s.advance.previous c) (t.advance.complainAt t.advance.previous c)

/-- They stay related behind any token. -/
class Onward : Prop extends Ahead A where
  advance {i s t} : A i s t → A i s.advance t.advance
  calm {i s t} : A i s t → A i { s with panicking := false } { t with panicking := false }

/-- They stay related whatever the compiler does. -/
class Whole : Prop extends Heard A, Scopes A, Onward A where
  count : Comp.Kept A (Comp.modifyContext fun c => { c with arity := c.arity + 1 })
  nest (name) (x y : Comp Unit) : Comp.Abreast A x y →
  Comp.Abreast A (Comp.makeFunction name x) (Comp.makeFunction name y)

/-- They stay related whatever functions are written. -/
class Alike : Prop extends Seen A where
  write {i s t} (context around builds) : A i s t →
    A i { s with context, around, builds } { t with context, around, builds }

/-- They stay related whatever is read and written. -/
class Match : Prop extends Alike A, Onward A

section

variable {A : ι → Compilation → Compilation → Prop} [alike : Alike A] {i : ι} {s t : Compilation}
  (h : A i s t)

include h

theorem rewritten {c c' : Context} {cs cs' : List Context} {bs bs' : Array Build} (hc : c' = c)
    (hcs : cs' = cs) (hbs : bs' = bs) :
    A i { s with context := c, around := cs, builds := bs }
    { t with context := c', around := cs', builds := bs' } := by
  subst hc hcs hbs
  exact alike.write _ _ _ h

theorem rewritten_context {c c' : Context} (hc : c' = c) :
    A i { s with context := c } { t with context := c' } :=
  rewritten h hc (alike.around h) (alike.builds h)

end

instance scopes_alike [alike : Alike A] : Scopes A where
  grow h _ := rewritten_context h rfl
  capture h _ := rewritten h rfl rfl (alike.builds h)
  pool h _ := rewritten h rfl (alike.around h) (by rw [alike.builds h])
  edit h _ := rewritten_context h rfl

/-- What is true of a compilation and stays so, whatever the compiler does. -/
class Lasting (I : ι → Compilation → Prop) : Prop where
  write {i} {s : Compilation} (context around builds) : I i s → I i { s with context, around, builds }
  complain {i} {s : Compilation} (c) : I i s → I i (s.complainAt s.previous c)
  complainHere {i} {s : Compilation} (c) : I i s → I i (s.complainAt s.current c)
  advance {i} {s : Compilation} : I i s → I i s.advance
  calm {i} {s : Compilation} : I i s → I i { s with panicking := false }

/-- The same state, of which `I` is true. -/
def Shared (I : ι → Compilation → Prop) (i : ι) (s t : Compilation) : Prop := t = s ∧ I i s

theorem Ahead.shared {I : ι → Compilation → Prop}
    (complain : ∀ {i s} c, I i s → I i (s.complainAt s.previous c))
    (complainHere : ∀ {i s} c, I i s → I i (s.complainAt s.current c)) : Ahead (Shared I) where
  context h := by rw [h.1]
  around h := by rw [h.1]
  builds h := by rw [h.1]
  text h := by rw [h.1]
  line h := by rw [h.1]
  clean h := by rw [h.1]
  complain c h := ⟨by rw [h.1], complain c h.2⟩
  kind h := by rw [h.1]
  before h := by rw [h.1]
  panicking h := by rw [h.1]
  complainHere c h := ⟨by rw [h.1], complainHere c h.2⟩

instance match_shared (I : ι → Compilation → Prop) [lasting : Lasting I] : Match (Shared I) where
  toAhead := .shared lasting.complain lasting.complainHere
  write _ _ _ h := ⟨by rw [h.1], lasting.write _ _ _ h.2⟩
  advance h := ⟨by rw [h.1], lasting.advance h.2⟩
  calm h := ⟨by rw [h.1], lasting.calm h.2⟩

end Compilation

end

/-- Something binds so tightly. -/
class Precedence.Binds (p : Precedence) : Prop where
  rank_pos : 0 < p.rank

instance Precedence.binds_assignment : Precedence.Binds .assignment := ⟨by decide⟩
instance Precedence.binds_conditional : Precedence.Binds .conditional := ⟨by decide⟩
instance Precedence.binds_or : Precedence.Binds .or := ⟨by decide⟩
instance Precedence.binds_and : Precedence.Binds .and := ⟨by decide⟩
instance Precedence.binds_unary : Precedence.Binds .unary := ⟨by decide⟩
instance Precedence.binds_next (p : Precedence) : p.next.Binds := ⟨by cases p <;> decide⟩

namespace Goal

/-- An expression, or a row of expressions and its end. -/
@[reducible]
def isSteady : Goal → Bool
  | .expression _ | .operators .. | .printed _ | .arguments _ => true
  | _ => false

@[reducible]
def isOther : Goal → Bool
  | .expression _ | .operators .. => false
  | _ => true

/-- The parser asks itself for operators that bind, and for those only. -/
class Proper (goal : Goal) : Prop where
  binds : match goal with
    | .expression p | .operators p _ => 0 < p.rank
    | _ => True

instance proper_expression (p : Precedence) [h : p.Binds] : Proper (.expression p) := ⟨h.rank_pos⟩
instance proper_operators (p : Precedence) [h : p.Binds] (canAssign : Bool) :
    Proper (.operators p canAssign) := ⟨h.rank_pos⟩

instance proper_other (goal : Goal) [h : IsTrue goal.isOther] : goal.Proper := by
  cases goal with
  | expression | operators => exact absurd h.eq (by simp)
  | _ => exact ⟨trivial⟩

end Goal

namespace Comp

open Compilation (Seen Coded Scopes Ahead Heard Whole Alike Match Shared)

variable {s : Compilation} {name : String} {ι : Type} {A : ι → Compilation → Compilation → Prop}
  {α β : Type}

/-! ## Rules -/

instance kept_pure (a : α) : Kept A (pure a : Comp α) := ⟨fun h => ⟨rfl, h⟩⟩

instance abreast_bind (x y : Comp α) (f g : α → Comp β) [hx : Abreast A x y]
    [hf : ∀ a, Abreast A (f a) (g a)] : Abreast A (x >>= f) (y >>= g) :=
  ⟨fun {i s t} h => by
    obtain ⟨heq, h'⟩ := hx.run h
    show ((g (y.run t).1).run _).1 = ((f (x.run s).1).run _).1 ∧
      A i ((f (x.run s).1).run _).2 ((g (y.run t).1).run _).2
    rw [heq]
    exact (hf _).run h'⟩

theorem lasting_run {I : ι → Compilation → Prop} {x : Comp α} [hx : Kept (Shared I) x] {i : ι}
    (h : I i s) : I i (x.run s).2 := (hx.run ⟨rfl, h⟩).2.2

/-- The first parts are abreast, and so is what follows on the same result. -/
theorem Abreast.step {x y : Comp α} {f g : α → Comp β} [Abreast A x y]
    (hf : ∀ a, Abreast A (f a) (g a)) : Abreast A (x >>= f) (y >>= g) := inferInstance

instance abreast_ite (c : Prop) [Decidable c] (x x' y y' : Comp α) [hx : Abreast A x x']
    [hy : Abreast A y y'] : Abreast A (if c then x else y) (if c then x' else y') := by
  split
  · exact hx
  · exact hy

instance shared_get (I : ι → Compilation → Prop) : Kept (Shared I) (get : Comp Compilation) :=
  ⟨fun h => ⟨h.1, h⟩⟩
instance shared_previous (I : ι → Compilation → Prop) : Kept (Shared I) previous := by
    unfold previous; infer_instance

theorem abreast_at {f g : Compilation → Comp β} (hf : ∀ {i s t}, A i s t →
    ((g t).run t).1 = ((f s).run s).1 ∧ A i ((f s).run s).2 ((g t).run t).2) :
      Abreast A (get >>= f) (get >>= g) := ⟨hf⟩

/-- What depends on the state depends on a part of it that related states share. -/
theorem abreast_get {f g : Compilation → Comp β} (hf : ∀ {i s t}, A i s t → Abreast A (f s) (g t)) :
    Abreast A (get >>= f) (get >>= g) := abreast_at fun h => (hf h).run h

theorem kept_modify {f : Compilation → Compilation} (hf : ∀ {i s t}, A i s t → A i (f s) (f t)) :
    Kept A (modify f : Comp Unit) :=
  ⟨fun h => ⟨rfl, hf h⟩⟩

instance kept_complain (c : Complaint) [seen : Seen A] : Kept A (complain c) :=
  kept_modify (seen.complain c)

instance kept_complainIf (b : Bool) (c : Complaint) [Seen A] : Kept A (complainIf b c) := by
  unfold complainIf
  infer_instance

/-! ## Code -/

section

variable [coded : Coded A]

/-- Code of the line of now is added. -/
theorem kept_grow {f : Context → Int → Context} (hf : ∀ (c : Context) line, c.Adds line (f c line)) :
    Kept A (modify fun s => { s with context := f s.context s.previous.location.line } : Comp Unit) :=
  kept_modify fun {i s t} h => by
    rw [coded.context h, coded.line h]
    exact coded.grow h (hf _ _)

theorem kept_modifyContext {f : Context → Context} (hf : ∀ (c : Context) line, c.Adds line (f c)) :
    Kept A (modifyContext f) :=
  kept_grow (f := fun c _ => f c) hf

instance kept_emitByte (b : UInt8) : Kept A (emitByte b) :=
  kept_grow (f := fun c line => { c with chunk := c.chunk.write b line }) fun c line =>
    ⟨Shape.le_of_size (by simp [Context.shape, Chunk.write]) rfl rfl rfl, rfl, rfl,
      ⟨1, by simp [Chunk.write]⟩, rfl⟩

instance kept_emit (op : Op) : Kept A (emit op) := by unfold emit; infer_instance
instance kept_emitWith (op : Op) (b : UInt8) : Kept A (emitWith op b) := by
    unfold emitWith; infer_instance
instance kept_codeSize : Kept A codeSize :=
  abreast_get fun h => by rw [coded.context h]; infer_instance
instance kept_emitLoop (target : Nat) : Kept A (emitLoop target) := by unfold emitLoop; infer_instance
instance kept_emitJump (op : Op) : Kept A (emitJump op) := by unfold emitJump; infer_instance

instance kept_patchJump (offset : Nat) : Kept A (patchJump offset) := by
  have : ∀ distance,
    Kept A (modifyContext fun c => { c with chunk := (c.chunk.patchShort offset distance).2 }) :=
    fun _ => kept_modifyContext fun _ _ =>
      ⟨Shape.le_of_size (by simp [Context.shape, Chunk.patchShort]) rfl rfl rfl, rfl, rfl,
        ⟨0, by simp [Chunk.patchShort]⟩, rfl⟩
  unfold patchJump
  infer_instance

instance kept_emitReturn : Kept A emitReturn := by unfold emitReturn; infer_instance

instance kept_patchJump? (offset? : Option Nat) : Kept A (patchJump? offset?) := by
  cases offset? <;> (unfold patchJump?; infer_instance)

instance kept_patchSkip (jump? : Option Nat) : Kept A (patchSkip jump?) := by
  cases jump? <;> (unfold patchSkip; infer_instance)

instance kept_patchAll (offsets : List Nat) : Kept A (patchAll offsets) := by
  induction offsets with
  | nil => unfold patchAll; infer_instance
  | cons offset offsets ih => unfold patchAll; infer_instance

instance kept_emitAll (ops : List Op) : Kept A (emitAll ops) := by
  induction ops with
  | nil => unfold emitAll; infer_instance
  | cons op ops ih => unfold emitAll; infer_instance

instance kept_emitCaptures (ks : List Capture) : Kept A (emitCaptures ks) := by
  induction ks with
  | nil => unfold emitCaptures; infer_instance
  | cons k ks ih => unfold emitCaptures; infer_instance

instance kept_complainAll (cs : List Complaint) : Kept A (complainAll cs) := by
  induction cs with
  | nil => unfold complainAll; infer_instance
  | cons c cs ih => unfold complainAll; infer_instance

instance kept_operandAt (index : Nat) : Kept A (operandAt index) := by unfold operandAt; infer_instance

instance kept_poolIndex (k : Constant)
    [Kept A (modifyContext fun c => { c with chunk := c.chunk.addConstant k })] :
    Kept A (poolIndex k) :=
  abreast_get fun h => by rw [coded.context h]; infer_instance

/-- The heap is told of a constant as it is added. -/
theorem record_poolIndex_run (b : Build) (k : Constant) (s : Compilation) :
    (do record b; poolIndex k : Comp UInt8).run s = (operandAt s.context.chunk.constants.size).run
      { s with context := s.context.addConstant k, builds := s.builds.push b } := rfl

theorem kept_makeConstant {k : Constant} (hk : (Build.constant k).Literal) :
    Kept A (makeConstant k) := by
  refine ⟨fun {i s t} h => ?_⟩
  unfold makeConstant
  rw [record_poolIndex_run, record_poolIndex_run, coded.context h]
  exact Abreast.run (coded.pool h (.literal hk))

instance kept_makeText (s : String) : Kept A (makeConstant (.text s)) := kept_makeConstant trivial
instance kept_makeNumber (x : Float) : Kept A (makeConstant (.number x)) := kept_makeConstant trivial
instance kept_emitText (s : String) : Kept A (emitConstant (.text s)) := by
    unfold emitConstant; infer_instance
instance kept_emitNumber (x : Float) : Kept A (emitConstant (.number x)) := by
    unfold emitConstant; infer_instance

/-! ## Names -/

instance kept_discardLocals (count : Nat) : Kept A (discardLocals count) :=
  abreast_get fun h => by rw [coded.context h]; infer_instance

theorem nameConstant_run_known {index : Nat}
    (h : s.context.chunk.firstIndex? (·.isText name) = some index) :
    (nameConstant name).run s =
    (UInt8.ofNat index, { s with builds := s.builds.push (.name name index) }) := by
  unfold nameConstant
  rw [StateT.run_bind, StateT.run_get, pure_bind]
  dsimp only
  rewrite [h]
  rfl

theorem nameConstant_run_named (h : s.context.chunk.firstIndex? (·.isText name) = none) :
    (nameConstant name).run s = (operandAt s.context.chunk.constants.size).run { s with
      context := s.context.addConstant (.text name)
      builds := s.builds.push (.name name s.context.chunk.constants.size) } := by
  unfold nameConstant
  rw [StateT.run_bind, StateT.run_get, pure_bind]
  dsimp only
  rewrite [h]
  rfl

instance kept_nameConstant (name : String) : Kept A (nameConstant name) := ⟨fun {i s t} h => by
  cases hfind : s.context.chunk.firstIndex? (·.isText name) with
  | some index =>
    have heq : { t with context := s.context, builds := t.builds.push (.name name index) } =
        { t with builds := t.builds.push (.name name index) } := by rw [← coded.context h]
    rw [nameConstant_run_known hfind, nameConstant_run_known (by rw [coded.context h]; exact hfind)]
    exact ⟨rfl, heq ▸ coded.pool h (.known hfind)⟩
  | none =>
    rw [nameConstant_run_named hfind, nameConstant_run_named (by rw [coded.context h]; exact hfind),
      coded.context h]
    exact Abreast.run (coded.pool h (.named hfind))⟩

theorem resolve_local {slot : Nat} (hfind : s.context.findLocal? name = some slot) :
    (resolve name).run s = (accessLocal s.context slot).run s := by
  unfold resolve
  rewrite [StateT.run_bind, StateT.run_get, pure_bind, hfind]
  rfl

theorem resolve_other (hfind : s.context.findLocal? name = none) :
    (resolve name).run s = (accessOther name (capture name s.context s.around)).run
      (s.after (capture name s.context s.around)) := by
  unfold resolve
  rewrite [StateT.run_bind, StateT.run_get, pure_bind, hfind]
  rfl

instance kept_accessLocal (c : Context) (slot : Nat) : Kept A (accessLocal c slot) := by
    unfold accessLocal; infer_instance

instance kept_accessOther (name : String) (r : Resolution) : Kept A (accessOther name r) := by
  unfold accessOther
  cases r.index? <;> infer_instance

instance kept_resolve (name : String) : Kept A (resolve name) := by
  refine ⟨fun {i s t} h => ?_⟩
  cases hfind : s.context.findLocal? name with
  | some slot =>
    rw [resolve_local hfind,
      resolve_local ((congrArg (·.findLocal? name) (coded.context h)).trans hfind), coded.context h]
    exact Abreast.run h
  | none =>
    rw [resolve_other hfind,
      resolve_other ((congrArg (·.findLocal? name) (coded.context h)).trans hfind), coded.context h,
      coded.around h]
    exact Abreast.run (coded.capture h rfl)

instance kept_emitChange (v : Access) (op : Op) : Kept A (emitChange v op) :=
  .step fun _ => .step fun _ => .step fun _ => inferInstance

/-- The constant that names a global, after its declaration. -/
instance kept_nameGlobal : Kept A (do
    let s ← get
    if 0 < s.context.depth then return 0 else nameConstant s.previous.text : Comp UInt8) :=
  abreast_get fun h => by rw [coded.context h, coded.text h]; infer_instance

end

/-! ## Scopes -/

section

variable [scopes : Scopes A]

theorem kept_edit {f : Context → Context} (hf : ∀ c, (f c).core = c.core) : Kept A (modifyContext f) :=
  kept_modify fun {i s t} h => by
    rw [scopes.context h]
    exact scopes.edit h (hf _)

instance kept_beginScope : Kept A beginScope := kept_edit fun _ => rfl

instance kept_endScope : Kept A endScope := by
  refine @Abreast.step _ _ _ _ _ _ _ _ (kept_edit fun _ => rfl) fun _ => abreast_get fun h => ?_
  rw [scopes.context h]
  have : ∀ n, Kept A (modifyContext fun c => { c with locals := c.locals.take (c.locals.size - n) }) :=
    fun n => kept_edit fun _ => rfl
  infer_instance

instance kept_beginBreakable (isLoop : Bool) (target : Nat) :
    Kept A (beginBreakable isLoop target) := by
  have : Kept A
    (modifyContext fun c =>
    { c with breakables := ⟨isLoop, c.locals.size, target, #[]⟩ :: c.breakables }) :=
    kept_edit fun _ => rfl
  exact abreast_get fun h => by rw [scopes.context h]; infer_instance

instance kept_endBreakable : Kept A endBreakable := abreast_get fun h => by
  rw [scopes.context h]
  have : ∀ bs, Kept A (modifyContext fun c => { c with breakables := bs }) :=
    fun _ => kept_edit fun _ => rfl
  split <;> infer_instance

instance kept_addLocal (name : String) : Kept A (addLocal name) := by
  have : Kept A (modifyContext fun c => { c with locals := c.locals.push { name := name } }) :=
    kept_edit fun _ => rfl
  exact abreast_get fun h => by rw [scopes.context h]; infer_instance

instance kept_declareLocal : Kept A declareLocal :=
  abreast_get fun h => by rw [scopes.context h, scopes.text h]; infer_instance

instance kept_setReady : Kept A (modifyContext Context.markReady) := kept_edit fun _ => rfl
instance kept_markReady : Kept A markReady :=
  abreast_get fun h => by rw [scopes.context h]; infer_instance

instance kept_defineVariable (index : UInt8) : Kept A (defineVariable index) :=
  abreast_get fun h => by rw [scopes.context h]; infer_instance

end

/-! ## Functions -/

section

variable [alike : Alike A]

instance kept_rewrite (f : Context → Context) : Kept A (modifyContext f) :=
  kept_modify fun h => Compilation.rewritten_context h (by rw [alike.context h])

instance kept_beginFunction (name : String) : Kept A (beginFunction name) := kept_modify fun h =>
  Compilation.rewritten h rfl (by rw [alike.context h, alike.around h]) (by rw [alike.builds h])

instance kept_finishFunction : Kept A finishFunction := by
  refine .step fun _ => ⟨fun {i s t} h => ⟨congrArg Context.proto (alike.context h), ?_⟩⟩
  exact Compilation.rewritten h (alike.context h) (alike.around h)
    (by rw [alike.builds h, alike.context h, alike.clean h])

instance kept_endFunction : Kept A endFunction := by
  refine .step fun p => abreast_get fun h => ?_
  rw [alike.context h]
  refine @Abreast.step _ _ _ _ _ _ _ _ (kept_modify fun {i s t} h => ?_) fun _ => inferInstance
  rw [alike.around h]
  split
  · exact Compilation.rewritten h rfl rfl (alike.builds h)
  · exact h

instance abreast_inFunction (name : String) (x y : Comp Unit) [Abreast A x y] :
    Abreast A (inFunction name x) (inFunction name y) :=
  .step fun _ => .step fun _ => inferInstance

instance abreast_makeFunction (name : String) (x y : Comp Unit) [Abreast A x y] :
    Abreast A (makeFunction name x) (makeFunction name y) :=
  .step fun _ => .step fun _ => inferInstance

end

end Comp

namespace Compilation

instance whole_match {ι : Type} (A : ι → Compilation → Compilation → Prop) [mate : Match A] :
    Whole A :=
  { (inferInstance : Scopes A), mate.toOnward with
    pass := fun h _ => mate.advance h
    stumble := fun c h => mate.complain c (mate.advance h)
    count := inferInstance
    nest := fun _ _ _ _ => inferInstance }

end Compilation

namespace Comp

open Compilation (Coded Scopes Ahead Heard Onward Whole)

variable {k : Token.Kind} {ι : Type} {A : ι → Compilation → Compilation → Prop} {α β : Type}

/-! ## Tokens -/

theorem accept_run (k : Token.Kind) (s : Compilation) :
    (accept k).run s = if s.current.kind = k then (true, s.advance) else (false, s) := by
  show StateT.run (m := Id) (if (s.current.kind == k) = true then _ else _) s = _
  simp only [beq_iff_eq]
  split <;> rfl

theorem expect_run (k : Token.Kind) (m : Missing) (s : Compilation) :
    (expect k m).run s =
    ((), if s.current.kind = k then s.advance else s.complainAt s.current (.missing m)) := by
  show StateT.run (m := Id) (if (s.current.kind == k) = true then _ else _) s = _
  simp only [beq_iff_eq]
  split <;> rfl

theorem acceptCompound_run (s : Compilation) :
    acceptCompound.run s = match compoundOp? s.current.kind with
      | some op => (some op, s.advance)
      | none => (none, s) := by
  show StateT.run (m := Id) (match compoundOp? s.current.kind with | some _ => _ | none => _) s = _
  cases compoundOp? s.current.kind <;> rfl

theorem plain_of_compound {op : Op} : compoundOp? k = some op → k.isPlain = true := by
  cases k <;> simp [compoundOp?]

theorem plain_of_opening {o : Opening} : opening? k = some o → k.isPlain = true := by
  cases k <;> simp [opening?]

theorem plain_of_binds : 0 < (bindingPower k).rank → k.isPlain = true := by
  cases k <;> simp [bindingPower, Precedence.rank]

/-- States stay related behind a token of the kind `k`. -/
class Passing (A : ι → Compilation → Compilation → Prop) (k : Token.Kind) : Prop where
  pass {i s t} : A i s t → s.current.kind = k → A i s.advance t.advance

instance passing_heard [Heard A] (k : Token.Kind) [h : IsTrue k.isPlain] : Passing A k :=
  ⟨fun hst hk => Heard.pass hst (hk ▸ h.eq)⟩
instance passing_onward [onward : Onward A] (k : Token.Kind) : Passing A k :=
  ⟨fun hst _ => onward.advance hst⟩

section

variable [ahead : Ahead A]

instance kept_complainHere (c : Complaint) : Kept A (complainHere c) :=
  kept_modify (ahead.complainHere c)
instance kept_check (k : Token.Kind) : Kept A (check k) :=
  abreast_get fun h => by rw [ahead.kind h]; infer_instance

instance kept_accept (k : Token.Kind) [passing : Passing A k] : Kept A (accept k) := ⟨fun h => by
  rw [accept_run, accept_run, ahead.kind h]
  split
  · exact ⟨rfl, passing.pass h ‹_›⟩
  · exact ⟨rfl, h⟩⟩

instance kept_expect (k : Token.Kind) [passing : Passing A k] (m : Missing) : Kept A (expect k m) :=
  ⟨fun h => by
  rw [expect_run, expect_run, ahead.kind h]
  split
  · exact ⟨rfl, passing.pass h ‹_›⟩
  · exact ⟨rfl, ahead.complainHere _ h⟩⟩

theorem abreast_previous {f g : Token → Comp β}
    (hfg : ∀ t u : Token, u.kind = t.kind → u.text = t.text → Abreast A (f t) (g u)) :
    Abreast A (previous >>= f) (previous >>= g) :=
  abreast_get fun h => hfg _ _ (ahead.before h) (ahead.text h)

end

section

variable [onward : Onward A]

omit onward in
theorem skipFor_add {fuel : Nat} {s : Compilation} (h : s.left ≤ fuel) (more : Nat) :
    skipFor (fuel + more) s = skipFor fuel s := by
  induction fuel generalizing s with
  | zero =>
    have hkind : s.current.kind = .eof := by
      by_contra hkind
      exact absurd h (Nat.not_le.2 (Compilation.left_pos hkind))
    cases more with
    | zero => rfl
    | succ more => rw [Nat.zero_add, skipFor, skipFor, if_pos (by rw [hkind]; rfl)]
  | succ fuel ih =>
    rw [Nat.succ_add, skipFor, skipFor, ih (Nat.le_trans s.advance_left (Nat.sub_le_of_le_add h))]

theorem match_skipFor (fuel : Nat) {i : ι} {s t : Compilation} (h : A i s t) :
    A i (skipFor fuel s) (skipFor fuel t) := by
  induction fuel generalizing s t with
  | zero => exact h
  | succ fuel ih =>
    rw [skipFor, skipFor, onward.kind h, onward.before h]
    split
    · exact h
    · exact ih (onward.advance h)

instance kept_advance : Kept A advance := kept_modify onward.advance

instance kept_recover : Kept A recover := kept_modify fun {i s t} h => by
  have hs : ({ s with panicking := false } : Compilation).left ≤ s.rest.length + 2 :=
    Compilation.left_le _
  have ht : ({ t with panicking := false } : Compilation).left ≤ t.rest.length + 2 :=
    Compilation.left_le _
  show A i (skipFor _ _) (skipFor _ _)
  rw [← skipFor_add hs (t.rest.length + 2), ← skipFor_add ht (s.rest.length + 2), Nat.add_comm]
  exact match_skipFor _ (onward.calm h)

instance kept_recoverIfPanicking : Kept A recoverIfPanicking :=
  abreast_get fun h => by rw [onward.panicking h]; infer_instance

end

/-! ## Expressions -/

section

variable [heard : Heard A]

theorem pass_run {x y : Comp β} [hx : Abreast A x y] {i : ι} {s t : Compilation} (h : A i s t)
    (hplain : s.current.kind.isPlain = true) :
    ((advance >>= fun _ => y).run t).1 = ((advance >>= fun _ => x).run s).1 ∧
      A i ((advance >>= fun _ => x).run s).2 ((advance >>= fun _ => y).run t).2 :=
  hx.run (heard.pass h hplain)

instance kept_acceptCompound : Kept A acceptCompound := ⟨fun {i s t} h => by
  rw [acceptCompound_run, acceptCompound_run, heard.kind h]
  split
  · exact ⟨rfl, heard.pass h (plain_of_compound ‹_›)⟩
  · exact ⟨rfl, h⟩⟩

instance kept_parseStep (v : Access) : Kept A (parseStep v) := by
  refine .step fun up => .step fun changed => ?_
  split
  · refine .step fun _ => abreast_previous fun t u hkind _ => ?_
    rw [hkind]
    exact .step fun _ => inferInstance
  · infer_instance

instance kept_parseIncrement : Kept A parseIncrement := by
  refine abreast_previous fun sign sign' hsign _ => .step fun _ =>
    abreast_previous fun name name' hkind htext => ?_
  rw [hsign, hkind, htext]
  split
  · exact .step fun v => inferInstance
  · infer_instance

instance kept_countParameter [Kept A (modifyContext fun c => { c with arity := c.arity + 1 })] :
    Kept A countParameter :=
  .step fun _ => abreast_get fun h => by rw [heard.context h]; infer_instance

instance kept_finishCall (count : Nat) : Kept A (finishCall count) := .step fun _ => inferInstance
instance kept_finishPrint (count : Nat) : Kept A (finishPrint count) := .step fun _ => inferInstance

instance kept_parseBreak : Kept A parseBreak := abreast_get fun h => by
  rw [heard.context h]
  split
  · infer_instance
  · refine .step fun _ => .step fun _ => .step fun jump => kept_modifyContext fun c _ => ?_
    unfold Context.addExit
    have hshape : c.shape ≤ (c.addExit jump).shape := by
      unfold Context.addExit
      split
      · rename_i hbs
        refine ⟨Nat.le_refl _, rfl, rfl, ?_⟩
        simp only [Context.shape, hbs, List.map_cons, Array.toList_push]
        exact .cons (List.prefix_append _ _) (List.forall₂_same.2 fun _ _ => List.prefix_rfl)
      · exact le_rfl
    refine ⟨hshape, ?_, ?_, ⟨0, ?_⟩, ?_⟩ <;> split <;> simp

instance kept_parseContinue : Kept A parseContinue := abreast_get fun h => by
  rw [heard.context h]
  split
  · infer_instance
  · exact .step fun _ => .step fun _ => inferInstance

/-- Two ways to go on from the parts of expressions. -/
class Partners (A : ι → Compilation → Compilation → Prop) (p q : Recur) : Prop where
  abreast : ∀ (g : Goal) [IsTrue g.isSteady] [g.Proper], Abreast A (p g) (q g)

variable (self self' : Recur)

instance (priority := low) abreast_part [h : Partners A self self'] (g : Goal)
    [IsTrue g.isSteady] [g.Proper] : Abreast A (self g) (self' g) := h.abreast g

variable [Partners A self self']

instance abreast_parseCompound (v : Access) (op? : Option Op) :
    Abreast A (parseCompound self v op?) (parseCompound self' v op?) := by
  cases op? with
  | some op => exact .step fun _ => .step fun _ => .step fun _ => inferInstance
  | none => exact kept_parseStep v

instance abreast_parseChange (v : Access) : Abreast A (parseChange self v) (parseChange self' v) := by
  refine .step fun assigned => ?_
  split
  · exact .step fun _ => inferInstance
  · exact .step fun op? => inferInstance

instance abreast_parseVariable (name : String) (canAssign : Bool) :
    Abreast A (parseVariable self name canAssign) (parseVariable self' name canAssign) :=
  .step fun _ => inferInstance

instance abreast_parseOpening (o : Opening) (canAssign : Bool) :
    Abreast A (parseOpening self o canAssign) (parseOpening self' o canAssign) := by
  refine abreast_previous fun t u hkind htext => ?_
  rw [hkind, htext]
  cases o with
  | number => dsimp only; split <;> infer_instance
  | _ => infer_instance

instance abreast_parseRow (bound : Nat) (l : Limit) (count : Nat) (g : Goal)
    [IsTrue g.isSteady] [g.Proper]
    (x : Comp Unit) [Kept A x] :
    Abreast A (parseRow self bound l count g x) (parseRow self' bound l count g x) :=
  .step fun _ => .step fun _ => .step fun _ => inferInstance

instance abreast_parseArguments (count : Nat) :
    Abreast A (parseArguments self count) (parseArguments self' count) :=
  abreast_parseRow self self' ..

instance abreast_parseOperator : Abreast A (parseOperator self) (parseOperator self') := by
  refine abreast_previous fun t u hkind _ => ?_
  rw [hkind]
  dsimp only
  split
  · exact .step fun _ => inferInstance
  · exact .step fun done => .step fun _ => .step fun _ => inferInstance
  · exact .step fun other => .step fun done => .step fun _ => .step fun _ => .step fun _ =>
      inferInstance
  · exact .step fun other => .step fun _ => .step fun _ => .step fun _ => .step fun done =>
      .step fun _ =>
      .step fun _ => .step fun _ => inferInstance
  · refine .step fun _ => ?_
    split <;> infer_instance

instance abreast_parseOperators (p : Precedence) [hp : p.Binds] (canAssign : Bool) :
    Abreast A (parseOperators self p canAssign) (parseOperators self' p canAssign) :=
  abreast_at fun {i s t} h => by
  rw [heard.kind h]
  split
  · exact pass_run h (plain_of_binds (Nat.lt_of_lt_of_le hp.rank_pos ‹_›))
  · exact Abreast.run h

instance abreast_parseOperand (p : Precedence) [p.Binds] (o? : Option Opening) :
    Abreast A (parseOperand self p o?) (parseOperand self' p o?) := by
  cases o? with
  | none => exact inferInstanceAs (Kept A (complain .noExpression))
  | some o => exact .step fun _ => inferInstance

instance abreast_parseExpression (p : Precedence) [p.Binds] :
    Abreast A (parseExpression self p) (parseExpression self' p) := ⟨fun {i s t} h => by
  cases ho : opening? s.current.kind with
  | none =>
    have hrun : ∀ (self : Recur) {s : Compilation}, opening? s.current.kind = none →
        (parseExpression self p).run s = (complain .noExpression).run s.advance := fun self s ho => by
      show StateT.run (m := Id) (parseOperand self p (opening? s.advance.previous.kind)) _ = _
      rw [s.advance_previous, ho]
      rfl
    rw [hrun self ho, hrun self' (by rw [heard.kind h]; exact ho)]
    exact ⟨rfl, heard.stumble _ h⟩
  | some o =>
    have hoperand : Abreast A (previous >>= fun t => parseOperand self p (opening? t.kind))
        (previous >>= fun t => parseOperand self' p (opening? t.kind)) :=
      abreast_previous fun t u hkind _ => by rw [hkind]; infer_instance
    exact hoperand.run (heard.pass h (plain_of_opening ho))⟩

instance abreast_parsePrinted (count : Nat) :
    Abreast A (parsePrinted self count) (parsePrinted self' count) :=
  abreast_parseRow self self' ..

instance abreast_parsePrint : Abreast A (parsePrint self) (parsePrint self') :=
  .step fun _ => inferInstance

instance abreast_parseExpressionStatement :
    Abreast A (parseExpressionStatement self) (parseExpressionStatement self') :=
  .step fun _ => .step fun _ => inferInstance

instance abreast_parseReturn : Abreast A (parseReturn self) (parseReturn self') :=
  abreast_get fun h => by
  rw [heard.context h]
  refine .step fun _ => .step fun bare => ?_
  split
  · infer_instance
  · exact .step fun _ => .step fun _ => inferInstance

instance abreast_parseCondition (opening : Missing) :
    Abreast A (parseCondition self opening) (parseCondition self' opening) :=
  .step fun _ => .step fun _ => .step fun _ => .step fun _ => inferInstance

instance abreast_parseForCondition : Abreast A (parseForCondition self) (parseForCondition self') := by
  refine .step fun none => ?_
  split
  · infer_instance
  · exact .step fun _ => .step fun _ => .step fun exit => inferInstance

instance abreast_parseForStep (start : Nat) :
    Abreast A (parseForStep self start) (parseForStep self' start) :=
  .step fun _ => .step fun _ => .step fun _ => .step fun _ => .step fun _ => .step fun _ =>
    inferInstance

instance abreast_parseForIncrement (start : Nat) :
    Abreast A (parseForIncrement self start) (parseForIncrement self' start) :=
  .step fun _ => inferInstance

instance abreast_parseChosen [Onward A] : Abreast A (parseChosen self) (parseChosen self') :=
  .step fun _ => .step fun _ => .step fun _ => inferInstance

theorem partners_round : Partners A (round self) (round self') := ⟨fun goal hsteady hproper => by
  cases goal with
  | expression p =>
    have : p.Binds := ⟨hproper.binds⟩
    exact abreast_parseExpression self self' p
  | operators p canAssign =>
    have : p.Binds := ⟨hproper.binds⟩
    exact abreast_parseOperators self self' p canAssign
  | printed count => exact abreast_parsePrinted self self' count
  | arguments count => exact abreast_parseArguments self self' count
  | _ => exact absurd hsteady.eq (by simp)⟩

/-! ## Statements -/

variable [Scopes A]

omit [Partners A self self'] in
instance kept_declareName (m : Missing) : Kept A (declareName m) :=
  .step fun _ => .step fun _ => inferInstance

instance abreast_parseInitializer : Abreast A (parseInitializer self) (parseInitializer self') :=
  .step fun _ => inferInstance

instance abreast_parseVariableDeclaration :
    Abreast A (parseVariableDeclaration self) (parseVariableDeclaration self') :=
  .step fun _ => .step fun _ => .step fun _ => inferInstance

instance abreast_parseForStart : Abreast A (parseForStart self) (parseForStart self') :=
  .step fun _ => .step fun _ => inferInstance

section

variable [Abreast A (self .statement) (self' .statement)]

omit [Scopes A] [Partners A self self'] in
instance abreast_parseElse (done : Nat) : Abreast A (parseElse self done) (parseElse self' done) :=
  .step fun more => by dsimp only; infer_instance

omit [Scopes A] [Partners A self self'] in
instance abreast_parseOther (other : Nat) :
    Abreast A (parseOther self other) (parseOther self' other) :=
  .step fun _ => .step fun _ => inferInstance

omit [Scopes A] in
instance abreast_parseIf : Abreast A (parseIf self) (parseIf self') :=
  .step fun _ => .step fun _ => inferInstance

omit [Partners A self self'] in
instance abreast_parseLoop (next : Nat) (exit? : Option Nat) :
    Abreast A (parseLoop self next exit?) (parseLoop self' next exit?) :=
  .step fun _ => .step fun _ => .step fun _ => .step fun _ => inferInstance

instance abreast_parseWhile : Abreast A (parseWhile self) (parseWhile self') :=
  .step fun _ => .step fun _ => inferInstance

instance abreast_parseFor : Abreast A (parseFor self) (parseFor self') :=
  .step fun _ => .step fun _ => .step fun _ => .step fun _ => .step fun _ => .step fun _ =>
    inferInstance

end

section

variable (c : Clauses)

omit [Partners A self self'] in
instance kept_enterCase : Kept A (enterCase c) := kept_complainIf ..

omit [Partners A self self'] in
instance kept_enterDefault : Kept A (enterDefault c) := .step fun _ => inferInstance

instance abreast_parseTest : Abreast A (parseTest self c) (parseTest self' c) :=
  .step fun _ => .step fun _ => .step fun _ => .step fun _ => .step fun _ => inferInstance

omit [Partners A self self'] in
instance abreast_openClause (before : Comp Unit) (test test' : Comp (Option Nat))
    (sawDefault : Bool) [Kept A before]
    [Abreast A test test'] :
    Abreast A (openClause c before test sawDefault) (openClause c before test' sawDefault) :=
  .step fun _ => .step fun _ => .step fun _ => .step fun _ => inferInstance

variable [Abreast A (self .caseBody) (self' .caseBody)]
  [∀ c, Abreast A (self (.clauses c)) (self' (.clauses c))]

omit [Partners A self self'] in
instance abreast_finishClause : Abreast A (finishClause self c) (finishClause self' c) :=
  .step fun _ => .step fun _ => inferInstance

instance abreast_parseBody : Abreast A (parseBody self c) (parseBody self' c) :=
  .step fun _ => inferInstance

instance abreast_parseCase : Abreast A (parseCase self c) (parseCase self' c) :=
  .step fun _ => inferInstance
instance abreast_parseDefault : Abreast A (parseDefault self c) (parseDefault self' c) :=
  .step fun _ => inferInstance

end

instance abreast_parseCaseBody [Abreast A (self .caseBody) (self' .caseBody)]
    [Abreast A (self .declaration) (self' .declaration)] :
    Abreast A (parseCaseBody self) (parseCaseBody self') :=
  abreast_get fun h => by
    rw [heard.kind h]
    split <;> infer_instance

end

/-! ## The parser -/

section

variable [whole : Whole A]

/-- Two ways to go on from the parts of the parser. -/
class Fellows (A : ι → Compilation → Compilation → Prop) (p q : Recur) : Prop where
  abreast : ∀ (g : Goal) [g.Proper], Abreast A (p g) (q g)

variable (self self' : Recur)

instance (priority := low) abreast_goal [h : Fellows A self self'] (g : Goal) [g.Proper] :
    Abreast A (self g) (self' g) := h.abreast g

variable [Fellows A self self']

instance partners_fellows : Partners A self self' := ⟨fun _ => inferInstance⟩

omit [Fellows A self self'] in
instance kept_count : Kept A (modifyContext fun c => { c with arity := c.arity + 1 }) := whole.count

instance abreast_parseParameters : Abreast A (parseParameters self) (parseParameters self') :=
  .step fun _ => .step fun _ => .step fun _ => .step fun _ => inferInstance

instance abreast_parseNames : Abreast A (parseNames self) (parseNames self') :=
  .step fun _ => inferInstance

instance abreast_parseInside : Abreast A (parseInside self) (parseInside self') :=
  .step fun _ => .step fun _ => .step fun _ => .step fun _ => .step fun _ => inferInstance

instance abreast_parseFunction : Abreast A (parseFunction self) (parseFunction self') := by
  refine abreast_previous fun t u _ htext => ?_
  rw [htext]
  exact whole.nest _ _ _ (abreast_parseInside self self')

instance abreast_parseFunctionDeclaration :
    Abreast A (parseFunctionDeclaration self) (parseFunctionDeclaration self') :=
  .step fun _ => .step fun _ => .step fun _ => inferInstance

instance abreast_parseClauses (c : Clauses) :
    Abreast A (parseClauses self c) (parseClauses self' c) := by
  refine .step fun closed => .step fun ended => ?_
  split
  · infer_instance
  · refine .step fun isCase => ?_
    split
    · infer_instance
    · exact .step fun isDefault => inferInstance

instance abreast_parseChoices : Abreast A (parseChoices self) (parseChoices self') :=
  abreast_get fun h => by
  rw [whole.context h]
  exact .step fun _ => .step fun _ => .step fun _ => inferInstance

instance abreast_parseSwitch : Abreast A (parseSwitch self) (parseSwitch self') :=
  .step fun _ => .step fun _ => .step fun _ => .step fun _ => .step fun _ => inferInstance

instance abreast_parseBlock : Abreast A (parseBlock self) (parseBlock self') :=
  .step fun _ => .step fun _ => inferInstance

instance abreast_parseProgram : Abreast A (parseProgram self) (parseProgram self') :=
  .step fun _ => inferInstance

instance abreast_parseStatement : Abreast A (parseStatement self) (parseStatement self') :=
  abreast_get fun h => by
  rw [whole.kind h]
  split
  case h_10 => exact .step fun _ => .step fun _ => .step fun _ => inferInstance
  all_goals infer_instance

instance abreast_parseSentence : Abreast A (parseSentence self) (parseSentence self') :=
  abreast_get fun h => by
  rw [whole.kind h]
  split <;> infer_instance

instance abreast_parseDeclaration : Abreast A (parseDeclaration self) (parseDeclaration self') :=
  .step fun _ => inferInstance

theorem abreast_round (goal : Goal) [hproper : goal.Proper] :
    Abreast A (round self goal) (round self' goal) := by
  cases goal with
  | expression p | operators p canAssign =>
    have : p.Binds := ⟨hproper.binds⟩
    unfold round
    infer_instance
  | _ => unfold round; infer_instance

end

theorem fellows_parse [Whole A] (fuel : Nat) : Fellows A (parse fuel) (parse fuel) := by
  induction fuel with
  | zero => exact ⟨fun _ => by unfold parse; infer_instance⟩
  | succ fuel ih => exact ⟨fun goal => abreast_round _ _ goal⟩

end Comp

/-! ## Names of files -/

/-- The place without the name of its file. -/
def Location.unnamed (l : Location) : Location := { l with file := "" }

def Token.unnamed (t : Token) : Token := { t with location := t.location.unnamed }

def Diagnostic.unnamed (d : Diagnostic) : Diagnostic := { d with location := d.location.unnamed }

namespace Compilation

def unnamed (s : Compilation) : Compilation :=
  { s with
    rest := s.rest.map Token.unnamed
    current := s.current.unnamed
    previous := s.previous.unnamed
    diagnostics := s.diagnostics.map Diagnostic.unnamed }

/-- The compilation of the same text in a file without a name. -/
def Unnames (_ : Unit) (s t : Compilation) : Prop := t = s.unnamed

theorem unnamed_complainAt (s : Compilation) (t : Token) (c : Complaint) :
    (s.complainAt t c).unnamed = s.unnamed.complainAt t.unnamed c := by
  unfold complainAt
  have hpanicking : s.unnamed.panicking = s.panicking := rfl
  rw [hpanicking]
  split
  · rfl
  · simp only [unnamed, Array.map_push]
    rfl

theorem unnamed_fetch (s : Compilation) (ts : List Token) :
    s.unnamed.fetch (ts.map Token.unnamed) = (s.fetch ts).unnamed := by
  induction ts generalizing s with
  | nil => rfl
  | cons t ts ih =>
    have hkind : t.unnamed.kind = t.kind := rfl
    rw [List.map_cons, fetch, fetch, hkind]
    split
    · rw [← ih, unnamed_complainAt]
      rfl
    · rfl

theorem unnamed_advance (s : Compilation) : s.unnamed.advance = s.advance.unnamed := by
  have hkind : s.unnamed.current.kind = s.current.kind := rfl
  unfold advance
  dsimp only
  rw [hkind]
  split
  · rfl
  · exact unnamed_fetch { s with previous := s.current } s.rest

instance match_unnames : Match Unnames where
  context h := by rw [h]; rfl
  around h := by rw [h]; rfl
  builds h := by rw [h]; rfl
  text h := by rw [h]; rfl
  line h := by rw [h]; rfl
  clean h := by rw [h]; simp [unnamed, Array.isEmpty]
  write _ _ _ h := by rw [h]; rfl
  complain c h := by rw [h]; exact (unnamed_complainAt _ _ c).symm
  kind h := by rw [h]; rfl
  before h := by rw [h]; rfl
  panicking h := by rw [h]; rfl
  complainHere c h := by rw [h]; exact (unnamed_complainAt _ _ c).symm
  advance h := by rw [h]; exact unnamed_advance _
  calm h := by rw [h]; rfl

end Compilation

/-! ## Whole sources -/

instance Comp.abreast_script {ι : Type} (A : ι → Compilation → Compilation → Prop)
    [Compilation.Match A] (self self' : Recur) [Comp.Fellows A self self'] :
    Comp.Abreast A (Comp.script self) (Comp.script self') :=
  .step fun _ => .step fun _ => inferInstance

theorem Compiled.result_eq_ok {c : Compiled} {script : Proto} :
    c.result = .ok script ↔ c.diagnostics = [] ∧ c.script = script := by
  unfold Compiled.result
  cases hd : c.diagnostics <;> simp

theorem Compiled.result_eq_error {c : Compiled} {ds : Diagnostics} :
    c.result = .error ds ↔ c.diagnostics ≠ [] ∧ c.diagnostics = ds := by
  unfold Compiled.result
  cases hd : c.diagnostics <;> simp

def Compiled.unnamed (c : Compiled) : Compiled :=
  { c with diagnostics := c.diagnostics.map Diagnostic.unnamed }

theorem compileTokens_unnamed (ts : List Token) :
    compileTokens (ts.map Token.unnamed) = (compileTokens ts).unnamed := by
  have hstart : Compilation.Unnames () (.start ts) (.start (ts.map Token.unnamed)) := by
    simp only [Compilation.Unnames, Compilation.unnamed, Compilation.start, Array.map_empty]
    rfl
  have := Comp.fellows_parse (A := Compilation.Unnames) (8 * (ts.length + 2))
  obtain ⟨hproto, hended⟩ := Comp.Abreast.run (x := Comp.script (Comp.parse (8 * (ts.length + 2))))
    (y := Comp.script (Comp.parse (8 * (ts.length + 2)))) hstart
  rw [compileTokens, compileTokens, List.length_map]
  unfold Compiled.ofRun
  rw [hproto, hended]
  exact congrArg (Compiled.mk _ · _) Array.toList_map

namespace Cursor

theorem unnamed_nextLexeme (file : String) (c : Cursor) :
    ((c.nextLexeme file).1.unnamed, (c.nextLexeme file).2) = c.nextLexeme "" := by
  unfold nextLexeme
  split
  · rfl
  split
  · rfl
  split
  · rfl
  split
  · rfl
  split
  · split
    · dsimp only
      split <;> rfl
    · rfl
  split <;> rfl

theorem unnamed_next (file : String) (c : Cursor) :
    ((c.next file).1.unnamed, (c.next file).2) = c.next "" := by
  unfold next
  split
  · rfl
  · exact unnamed_nextLexeme file _

theorem unnamed_tokensFor (file : String) (fuel : Nat) (c : Cursor) (before : Array Token) :
    (tokensFor file fuel c before).map Token.unnamed = tokensFor "" fuel c
    (before.map Token.unnamed) := by
  induction fuel generalizing c before with
  | zero => simp only [tokensFor, Array.map_push]; rfl
  | succ fuel ih =>
    have hnext := unnamed_next file c
    rw [tokensFor, tokensFor, ← hnext]
    have hkind : (c.next file).1.unnamed.kind = (c.next file).1.kind := rfl
    dsimp only
    rw [hkind]
    split
    · exact Array.map_push
    · rw [ih, Array.map_push]

end Cursor

/-- **The name of a file shows in diagnostics only.** -/
theorem compile_unnamed (file source : String) :
    (compile file source).unnamed = compile "" source := by
  have htokens : (tokens file source).map Token.unnamed = tokens "" source := by
    unfold tokens
    dsimp only
    rw [← Array.toList_map, Cursor.unnamed_tokensFor, Array.map_empty]
  unfold compile
  rw [← compileTokens_unnamed, htokens]

end Parlance
