/-
  What each goal of the parser comes to.
-/
import Parlance.Proofs.Compiler.Names

namespace Parlance

variable {bs : List (Bool × Nat × Nat)} {rs : List Loop}

/-! ## Between two statements -/

/-- The open loops, as the innermost breakables say: how high each is, and from where it goes on. -/
inductive Nest : List (Bool × Nat × Nat) → List Loop → Prop
  | nil : Nest [] []
  | choice {m target bs rs} : Nest bs rs → (∀ r ∈ rs, r.height ≤ m) →
      Nest ((false, m, target) :: bs) rs
  | loop {r target bs rs} : Nest bs rs → (∀ r' ∈ rs, r'.height ≤ r.height) → target ∈ r.entries →
      Nest ((true, r.height, target) :: bs) (r :: rs)

theorem Nest.exists_of_mem (h : Nest bs rs) {r : Loop}
    (hr : r ∈ rs) : ∃ b ∈ bs, r.height = b.2.1 := by
  induction h with
  | nil => simp at hr
  | choice _ _ ih =>
    obtain ⟨b, hb, hh⟩ := ih hr
    exact ⟨b, List.mem_cons_of_mem _ hb, hh⟩
  | loop _ _ _ ih =>
    rcases List.mem_cons.1 hr with rfl | hr
    · exact ⟨_, List.mem_cons_self, rfl⟩
    · obtain ⟨b, hb, hh⟩ := ih hr
      exact ⟨b, List.mem_cons_of_mem _ hb, hh⟩

/-- No open loop counts on more than the innermost breakable leaves. -/
theorem Nest.height_le {b : Bool × Nat × Nat}
    (h : Nest (b :: bs) rs) : ∀ r ∈ rs, r.height ≤ b.2.1 := by
  cases h with
  | choice _ hle => exact hle
  | loop _ hle _ =>
    intro r' hr'
    rcases List.mem_cons.1 hr' with rfl | hr'
    · exact Nat.le_refl _
    · exact hle r' hr'

/-- The innermost loop among the breakables is the innermost open loop. -/
theorem Nest.innermost {b : Bool × Nat × Nat}
    (h : Nest bs rs) (hfind : bs.find? (·.1) = some b) :
    ∃ r rs', rs = r :: rs' ∧ r.height = b.2.1 ∧ b.2.2 ∈ r.entries ∧ ∀ r' ∈ rs', r'.height ≤ b.2.1 := by
  induction h with
  | nil => simp at hfind
  | choice _ _ ih => exact ih (by simpa using hfind)
  | loop _ hle ht _ =>
    obtain rfl : _ = b := by simpa using hfind
    exact ⟨_, _, rfl, rfl, ht, hle⟩

namespace Context

variable {K : Context} {ps : List Jump} {rs : List Loop} {h : Nat}

/-- All variables of the function have their values, and there is nothing else on the frame. -/
structure Settled (K : Context) (ps : List Jump) (rs : List Loop) (h : Nat) : Prop where
  height : h = K.locals.size
  pos : 1 ≤ h
  small : h ≤ maxLocals
  ready : ∀ d ∈ K.outline.locals, ∃ e ≤ K.depth, d = some e
  nest : Nest K.outline.breakables rs
  counts : ∀ b ∈ K.outline.breakables, 1 ≤ b.2.1 ∧ b.2.1 ≤ h
  pending : ∀ x ∈ ps, x.below ≤ h

theorem Settled.base (hk : K.Settled ps rs h) : K.Base rs h where
  pos := hk.pos
  free {i d} hi := by
    obtain ⟨hlt, -⟩ := List.getElem?_eq_some_iff.1 hi
    simp only [outline, List.length_map, Array.length_toList] at hlt
    exact hk.height ▸ hlt
  loops r hr := by
    obtain ⟨b, hb, hh⟩ := hk.nest.exists_of_mem hr
    exact hh ▸ (hk.counts b hb).2

theorem Settled.succ_le_512 (hk : K.Settled ps rs h) : h + 1 ≤ 512 :=
  Nat.le_trans (Nat.succ_le_succ hk.small) (show 257 ≤ 512 by omega)

theorem Settled.le_512 (hk : K.Settled ps rs h) : h ≤ 512 := Nat.le_of_succ_le hk.succ_le_512

theorem Settled.jump (hk : K.Settled ps rs h) {x : Jump} (hx : x.below ≤ h) :
    K.Settled (x :: ps) rs h :=
  { hk with
    pending := fun y hy => (List.mem_cons.1 hy).elim (fun hy => hy ▸ hx) (hk.pending y) }

theorem Settled.jumps (hk : K.Settled ps rs h) (p : Option Nat) (height : Nat) :
    K.Settled ((p.map (⟨·, height, h⟩)).toList ++ ps) rs h := by
  cases p with
  | none => exact hk
  | some p => exact hk.jump (Nat.le_refl h)

/-- The function in one scope more. -/
def deepen (K : Context) : Context := { K with depth := K.depth + 1 }

/-- The function with more variables in the scope of now. -/
def declare (K : Context) (ls : List Local) : Context := { K with locals := K.locals ++ ls.toArray }

/-- Variables of the scope of now, as many as there is room for. -/
structure Fresh (K : Context) where
  toList : List Local
  depth_eq : ∀ l ∈ toList, l.depth = some K.depth
  room : K.locals.size ≤ maxLocals → K.locals.size + toList.length ≤ maxLocals

instance nonempty_fresh : Nonempty K.Fresh := ⟨⟨[], by simp, by simp⟩⟩

theorem Settled.declare (hk : K.Settled ps rs h) (ls : K.Fresh) :
    (K.declare ls.toList).Settled ps rs (h + ls.toList.length) where
  height := by simp [Context.declare, hk.height]
  pos := Nat.le_add_right_of_le hk.pos
  small := hk.height ▸ ls.room (hk.height ▸ hk.small)
  ready d hd := by
    simp only [outline, Context.declare, Array.toList_append, List.map_append, List.mem_append] at hd
    rcases hd with hd | hd
    · exact hk.ready d hd
    · obtain ⟨l, hl, rfl⟩ := List.mem_map.1 hd
      exact ⟨K.depth, Nat.le_refl _, ls.depth_eq l (by simpa using hl)⟩
  nest := hk.nest
  counts b hb := ⟨(hk.counts b hb).1, Nat.le_add_right_of_le (hk.counts b hb).2⟩
  pending x hx := Nat.le_add_right_of_le (hk.pending x hx)

theorem declare_nil (K : Context) : K.declare [] = K := by simp [declare]

theorem declare_append (K : Context) (ls ls' : List Local) :
    (K.declare ls).declare ls' = K.declare (ls ++ ls') := by
  simp [declare, Array.append_assoc]

/-- More variables behind fresh ones. -/
def Fresh.append (ls : K.Fresh) (ls' : (K.declare ls.toList).Fresh) : K.Fresh :=
  ⟨ls.toList ++ ls'.toList, fun l hl => (List.mem_append.1 hl).elim (ls.depth_eq l) (ls'.depth_eq l),
    fun hle => by
      have := ls'.room (by simpa [declare] using ls.room hle)
      simpa [declare, Nat.add_assoc] using this⟩

/-- A function of which only parameters are known. -/
def parametric (ls : List Local) : Context :=
  { arity := ls.length, depth := 1, locals := #[⟨"", some 0, false⟩] ++ ls.toArray }

/-- Parameters, as many as there may be. -/
structure Parameters where
  toList : List Local
  length_le : toList.length ≤ maxParameters
  depth_eq : ∀ l ∈ toList, l.depth = some 1

/-- No parameters. -/
def Parameters.none : Parameters := ⟨[], by simp, by simp⟩

instance nonempty_parameters : Nonempty Parameters := ⟨.none⟩

theorem parametric_settled (ls : Parameters) :
    (parametric ls.toList).Settled [] [] (1 + ls.toList.length) where
  height := by simp [parametric, Nat.add_comm]
  pos := Nat.le_add_right _ _
  small := by have := ls.length_le; simp only [maxParameters, maxLocals] at *; omega
  ready d hd := by
    simp only [outline, parametric, Array.toList_append, List.map_append, List.mem_append] at hd
    rcases hd with hd | hd
    · exact ⟨0, by simp, by simpa using hd⟩
    · obtain ⟨l, hl, rfl⟩ := List.mem_map.1 hd
      exact ⟨1, Nat.le_refl _, ls.depth_eq l (by simpa using hl)⟩
  nest := .nil
  counts := by simp [outline, parametric]
  pending := by simp

end Context

/-- The parameters of a function are being read, and its code is still empty. -/
def Compilation.Entering (A : List Context) (ls : Context.Parameters) (s : Compilation) : Prop :=
  s.context.chunk = {} ∧ Stands (.parametric ls.toList) A [] [] (1 + ls.toList.length) s

/-! ## Goals -/

/-- The jumps that the clauses of a choice have left open. -/
def Clauses.jumps (c : Clauses) (h : Nat) : List Jump :=
  (c.skip?.map (⟨·, h + 1, h⟩)).toList ++ (c.fall?.map (⟨·, h, h⟩)).toList

/-- Some variables were declared since, and have their values. -/
abbrev Compilation.Declares (K : Context) (A : List Context) (ps : List Jump)
    (rs : List Loop) (h : Nat) (s : Compilation) : Prop :=
  ∃ ls : K.Fresh, Stands (K.declare ls.toList) A ps rs (h + ls.toList.length) s

namespace Comp

open Compilation

/-- What is known when the next clause of a choice begins: behind a body control comes only by the
jumps that are still open. -/
def AtClause (K : Context) (A : List Context) (ps : List Jump) (rs : List Loop) (h : Nat)
    (c : Clauses) (s : Compilation) : Prop :=
  c.slot.toNat < h ∧ (c.fall? = none → c.skip? = none) ∧
    ∀ h' ≤ 512, (c.fall? = none → h' = h) → Stands K A (c.jumps h ++ ps) rs h' s

/-- A move that leaves one value. -/
def Yields (x : Comp Unit) : Prop := ∀ {K A ps rs h}, Context.Base K rs h →
  Triple (Stands K A ps rs h) x fun _ => Stands K A ps rs (h + 1)

/-- A move from one statement to the next that leaves the frame as it was. -/
def Balances (x : Comp Unit) : Prop := ∀ {K A ps rs h}, K.Settled ps rs h →
  Triple (Stands K A ps rs h) x fun _ => Stands K A ps rs h

/-- A move from one statement to another behind which variables may have been declared. -/
def Introduces (x : Comp Unit) : Prop := ∀ {K A ps rs h}, K.Settled ps rs h →
  Triple (Stands K A ps rs h) x fun _ => Declares K A ps rs h

/-- A move that takes the last `count` values and leaves `rest` in their place. -/
def Gathers (count rest : Nat) (x : Comp Unit) : Prop := ∀ {K A ps rs h}, Context.Base K rs h →
  Triple (fun s => count ≤ 255 ∧ Stands K A ps rs (h + rest + count) s) x fun _ =>
  Stands K A ps rs (h + rest)

/-- The parser meets its goals. -/
structure Meets (parser : Recur) : Prop where
  expression {p} : 1 ≤ p.rank → Yields (parser (.expression p))
  operators {K A ps rs h p canAssign} : 1 ≤ p.rank → Context.Base K rs h →
    Triple (Stands K A ps rs (h + 1)) (parser (.operators p canAssign)) fun _ =>
    Stands K A ps rs (h + 1)
  arguments {count} : Gathers count 1 (parser (.arguments count))
  printed {count} : Gathers count 0 (parser (.printed count))
  parameters {A ls} : Triple (Entering A ls) (parser .parameters) fun _ s => ∃ ls', Entering A ls' s
  statement : Balances (parser .statement)
  declaration : Introduces (parser .declaration)
  block : Introduces (parser .block)
  caseBody : Introduces (parser .caseBody)
  program : Introduces (parser .program)
  clauses {K A ps rs h c} : K.Settled ps rs h →
    Triple (AtClause K A ps rs h c) (parser (.clauses c)) fun _ => Stands K A ps rs h

end Comp

end Parlance
