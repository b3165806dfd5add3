/-
  Heaps that show the same objects.

  * `Alike.evolves`, `Alike.allocated`, `Alike.internedAs`, `Alike.setObject`: what keeps heaps
    alike.
  * `Alike.text?_eq`, `Alike.typeName?_eq`: scripts see the same.

  A pairing only grows. Pairs of which one side was released stay in it and say nothing any more,
  since numbers are not used twice.
-/
import Mathlib.Data.List.Forall2
import Mathlib.Data.Option.Basic
import Parlance.Proofs.Machine.Sound

namespace Parlance

variable {f g : Function} {o p : Object}

/-- Which object of one heap stands for which of another. -/
abbrev Pairing := Ref → Ref → Prop

/-- A pairing that pairs two more objects. -/
def Pairing.add (β : Pairing) (a b : Ref) : Pairing := fun x y => β x y ∨ x = a ∧ y = b

theorem Pairing.le_add (β : Pairing) (a b : Ref) {x y : Ref} (h : β x y) : β.add a b x y := Or.inl h

theorem Pairing.add_self (β : Pairing) (a b : Ref) : β.add a b a b := Or.inr ⟨rfl, rfl⟩

/-- How captured variables correspond, given how objects do. -/
structure Kinship where
  vars : Pairing → Upvalue → Upvalue → Prop
  mono : ∀ {β β' : Pairing}, (∀ {a b}, β a b → β' a b) → ∀ {u v}, vars β u v → vars β' u v

variable {K : Kinship} {β β' : Pairing}

/-! ## Rows -/

section Rows

variable {α α' : Type} {R S : α → α' → Prop} {xs : List α} {ys : List α'}

section

variable (h : List.Forall₂ R xs ys)
include h

theorem forall₂_getElem? (i : Nat) : Option.Rel R xs[i]? ys[i]? := by
  induction h generalizing i with
  | nil => exact .none
  | cons hx _ ih =>
    cases i with
    | zero => simpa using hx
    | succ i => simpa using ih i

theorem forall₂_set (i : Nat) {x : α} {y : α'} (hxy : R x y) :
    List.Forall₂ R (xs.set i x) (ys.set i y) := by
  induction h generalizing i with
  | nil => exact .nil
  | cons hx htail ih =>
    cases i with
    | zero => exact .cons hxy htail
    | succ i => exact .cons hx (ih i)

theorem forall₂_modify (i : Nat) {f : α → α} {g : α' → α'} (hfg : ∀ {x y}, R x y → R (f x) (g y)) :
    List.Forall₂ R (xs.modify i f) (ys.modify i g) := by
  induction h generalizing i with
  | nil => cases i <;> exact .nil
  | cons hx htail ih =>
    cases i with
    | zero => exact .cons (hfg hx) htail
    | succ i => exact .cons hx (ih i)

theorem forall₂_dropLast : List.Forall₂ R xs.dropLast ys.dropLast := by
  rw [List.dropLast_eq_take, List.dropLast_eq_take, h.length_eq]
  exact List.forall₂_take _ h

theorem forall₂_concat {x : α} {y : α'} (hxy : R x y) : List.Forall₂ R (xs ++ [x]) (ys ++ [y]) :=
  List.rel_append h (.cons hxy .nil)

theorem forall₂_exists {x : α} (hx : x ∈ xs) : ∃ y ∈ ys, R x y := by
  induction h with
  | nil => cases hx
  | cons hxy _ ih =>
    rcases List.mem_cons.1 hx with rfl | hx
    · exact ⟨_, List.mem_cons_self, hxy⟩
    · obtain ⟨y, hy, hxy⟩ := ih hx
      exact ⟨y, List.mem_cons_of_mem _ hy, hxy⟩

theorem forall₂_imp_of_mem (himp : ∀ {a b}, a ∈ xs → b ∈ ys → R a b → S a b) :
    List.Forall₂ S xs ys := by
  induction h with
  | nil => exact .nil
  | cons hxy _ ih =>
    exact .cons (himp List.mem_cons_self List.mem_cons_self hxy) (ih fun ha hb =>
      himp (List.mem_cons_of_mem _ ha) (List.mem_cons_of_mem _ hb))

end

theorem rel_mono (himp : ∀ {a b}, R a b → S a b) {x : Option α} {y : Option α'}
    (h : Option.Rel R x y) : Option.Rel S x y := by
  cases h with
  | none => exact .none
  | some h => exact .some (himp h)

end Rows

/-! ## Values and objects -/

/-- The same value, up to the pairing. -/
inductive Value.Alike (β : Pairing) : Value → Value → Prop
  | nul : Alike β .nul .nul
  | bool (b : Bool) : Alike β (.bool b) (.bool b)
  | number (x : Float) : Alike β (.number x) (.number x)
  | object {a b : Ref} : β a b → Alike β (.object a) (.object b)

theorem Value.Alike.mono (hle : ∀ {a b}, β a b → β' a b) {v w : Value} (h : v.Alike β w) :
    v.Alike β' w := by
  cases h with
  | nul => exact .nul
  | bool b => exact .bool b
  | number x => exact .number x
  | object h => exact .object (hle h)

theorem Value.Alike.isFalsey_eq {v w : Value} (h : v.Alike β w) : v.isFalsey = w.isFalsey := by
  cases h <;> rfl

/-- The same function, up to the pairing. -/
structure Function.Alike (β : Pairing) (f g : Function) : Prop where
  name : Option.Rel β f.name g.name
  arity : f.arity = g.arity
  upvalueCount : f.upvalueCount = g.upvalueCount
  code : f.chunk.code = g.chunk.code
  lines : f.chunk.lines = g.chunk.lines
  constants : List.Forall₂ (Value.Alike β) f.chunk.constants.toList g.chunk.constants.toList

theorem Function.Alike.mono (hle : ∀ {a b}, β a b → β' a b) (h : f.Alike β g) : f.Alike β' g where
  name := rel_mono hle h.name
  arity := h.arity
  upvalueCount := h.upvalueCount
  code := h.code
  lines := h.lines
  constants := h.constants.imp fun _ _ => .mono hle

/-- The same object, up to the pairing. -/
inductive Object.Alike (K : Kinship) (β : Pairing) : Object → Object → Prop
  | text (s : String) (n : UInt32) : Alike K β (.text s n) (.text s n)
  | function {f g : Function} : f.Alike β g → Alike K β (.function f) (.function g)
  | closure {f g : Option Ref} {us vs : Array (Option Ref)} : Option.Rel β f g →
      List.Forall₂ (Option.Rel β) us.toList vs.toList → Alike K β (.closure f us) (.closure g vs)
  | upvalue {u v : Upvalue} : K.vars β u v → Alike K β (.upvalue u) (.upvalue v)
  | native (n : Native) : Alike K β (.native n) (.native n)

theorem Object.Alike.mono (hle : ∀ {a b}, β a b → β' a b) (h : o.Alike K β p) : o.Alike K β' p := by
  cases h with
  | text s n => exact .text s n
  | function h => exact .function (h.mono hle)
  | closure hf hus => exact .closure (rel_mono hle hf) (hus.imp fun _ _ => rel_mono hle)
  | upvalue h => exact .upvalue (K.mono hle h)
  | native n => exact .native n

/-! ## Heaps -/

namespace Heap

/-- Paired objects that are registered in both heaps are alike, and have no other partner. -/
structure Alike (K : Kinship) (β : Pairing) (h1 h2 : Heap) : Prop where
  bound : ∀ {a b}, β a b → a.serial < h1.cells.size ∧ b.serial < h2.cells.size
  object : ∀ {a b}, β a b → h1.Live a → h2.Live b →
    ∃ o p, h1.object? a = some o ∧ h2.object? b = some p ∧ o.Alike K β p
  left : ∀ {a b b'}, β a b → β a b' → h1.Live a → h2.Live b → h2.Live b' → b = b'
  right : ∀ {a a' b}, β a b → β a' b → h1.Live a → h1.Live a' → h2.Live b → a = a'

variable {h1 h2 h1' h2' : Heap} {a b : Ref} {v w : Value} {R1 R2 : List Ref}

namespace Alike

theorem empty (K : Kinship) (h1 h2 : Heap) : Alike K (fun _ _ => False) h1 h2 :=
  ⟨False.elim, False.elim, False.elim, False.elim⟩

variable (ha : Alike K β h1 h2)
include ha

theorem eq_iff {a' b' : Ref} (hab : β a b) (hab' : β a' b') (hl : h1.Live a) (hl' : h1.Live a')
    (hr : h2.Live b) (hr' : h2.Live b') : a = a' ↔ b = b' := by
  constructor
  · rintro rfl
    exact ha.left hab hab' hl hr hr'
  · rintro rfl
    exact ha.right hab hab' hl hl' hr

/-! ### What keeps heaps alike -/

/-- Of what is paired nothing comes back, and what is left on both sides is alike. -/
theorem changed (hsize1 : h1.cells.size ≤ h1'.cells.size) (hsize2 : h2.cells.size ≤ h2'.cells.size)
    (hlive1 : ∀ {a b}, β a b → h1'.Live a → h1.Live a)
    (hlive2 : ∀ {a b}, β a b → h2'.Live b → h2.Live b)
    (hobject : ∀ {a b}, β a b → h1'.Live a → h2'.Live b →
      ∃ o p, h1'.object? a = some o ∧ h2'.object? b = some p ∧ o.Alike K β p) : Alike K β h1' h2' where
  bound hab := ⟨Nat.lt_of_lt_of_le (ha.bound hab).1 hsize1, Nat.lt_of_lt_of_le (ha.bound hab).2 hsize2⟩
  object := hobject
  left hab hab' hl hr hr' := ha.left hab hab' (hlive1 hab hl) (hlive2 hab hr) (hlive2 hab' hr')
  right hab hab' hl hl' hr := ha.right hab hab' (hlive1 hab hl) (hlive1 hab' hl') (hlive2 hab hr)

theorem evolves (he1 : h1.Evolves R1 h1') (he2 : h2.Evolves R2 h2') : Alike K β h1' h2' := by
  refine ha.changed he1.size_le he2.size_le (fun hab hl => (he1.old hl (ha.bound hab).1).1)
    (fun hab hr => (he2.old hr (ha.bound hab).2).1) fun hab hl hr => ?_
  obtain ⟨hl', ho1⟩ := he1.old hl (ha.bound hab).1
  obtain ⟨hr', ho2⟩ := he2.old hr (ha.bound hab).2
  rw [ho1, ho2]
  exact ha.object hab hl' hr'

theorem agrees (ha1 : h1.Agrees h1') (ha2 : h2.Agrees h2') : Alike K β h1' h2' := by
  refine ha.changed (Nat.le_of_eq ha1.size_eq.symm) (Nat.le_of_eq ha2.size_eq.symm)
    (fun _ => ha1.live_iff.1) (fun _ => ha2.live_iff.1) fun hab hl hr => ?_
  rw [ha1.object_eq, ha2.object_eq]
  exact ha.object hab (ha1.live_iff.1 hl) (ha2.live_iff.1 hr)

theorem add (hlt1 : a.serial < h1.cells.size) (hlt2 : b.serial < h2.cells.size)
    (ho : h1.object? a = some o) (hp : h2.object? b = some p) (hop : o.Alike K (β.add a b) p)
    (hleft : ∀ {y}, β a y → h1.Live a → h2.Live y → y = b)
    (hright : ∀ {x}, β x b → h1.Live x → h2.Live b → x = a) : Alike K (β.add a b) h1 h2 where
  bound := by
    rintro x y (hxy | ⟨rfl, rfl⟩)
    · exact ha.bound hxy
    · exact ⟨hlt1, hlt2⟩
  object := by
    rintro x y (hxy | ⟨rfl, rfl⟩) hl hr
    · obtain ⟨o', p', ho', hp', hop'⟩ := ha.object hxy hl hr
      exact ⟨o', p', ho', hp', hop'.mono (β.le_add a b)⟩
    · exact ⟨o, p, ho, hp, hop⟩
  left := by
    rintro x y y' (hxy | ⟨rfl, rfl⟩) (hxy' | ⟨hx, hy⟩) hl hr hr'
    · exact ha.left hxy hxy' hl hr hr'
    · subst hx hy
      exact hleft hxy hl hr
    · exact (hleft hxy' hl hr').symm
    · exact hy.symm
  right := by
    rintro x x' y (hxy | ⟨rfl, rfl⟩) (hxy' | ⟨hx, hy⟩) hl hl' hr
    · exact ha.right hxy hxy' hl hl' hr
    · subst hx hy
      exact hright hxy hl hr
    · exact (hright hxy' hl' hr).symm
    · exact hx.symm

theorem allocated (ha1 : h1.Allocated R1 o a h1') (ha2 : h2.Allocated R2 p b h2')
    (hop : o.Alike K β p) : Alike K (β.add a b) h1' h2' := by
  have hold := ha.evolves ha1.toEvolves ha2.toEvolves
  refine hold.add ha1.live_new.lt ha2.live_new.lt ha1.object_new ha2.object_new
    (hop.mono (β.le_add a b)) ?_ ?_
  · exact fun hay _ _ => absurd (ha.bound hay).1 (Nat.not_lt.2 ha1.fresh)
  · exact fun hxb _ _ => absurd (ha.bound hxb).2 (Nat.not_lt.2 ha2.fresh)

theorem internedAs {s : String} {k1 k2 : Symbol} (hi1 : h1.InternedAs R1 s k1 h1')
    (hi2 : h2.InternedAs R2 s k2 h2') : Alike K (β.add k1.ref k2.ref) h1' h2' := by
  have hold := ha.evolves hi1.toEvolves hi2.toEvolves
  refine hold.add hi1.live_key.lt hi2.live_key.lt hi1.object_key hi2.object_key (.text _ _) ?_ ?_
  · intro y hay hl hr
    obtain ⟨o, p, ho, hp, hop⟩ := hold.object hay hl hr
    rw [hi1.object_key] at ho
    cases ho
    cases hop
    exact hi2.sound.unique hr hi2.live_key hp hi2.object_key
  · intro x hxb hl hr
    obtain ⟨o, p, ho, hp, hop⟩ := hold.object hxb hl hr
    rw [hi2.object_key] at hp
    cases hp
    cases hop
    exact hi1.sound.unique hl hi1.live_key ho hi1.object_key

theorem setObject (hab : β a b) (hl : h1.Live a) (hr : h2.Live b) (hop : o.Alike K β p) :
    Alike K β (h1.setObject a o) (h2.setObject b p) := by
  refine ha.changed (by simp [Heap.setObject]) (by simp [Heap.setObject])
    (fun _ => (live_setObject ..).1) (fun _ => (live_setObject ..).1) fun {x y} hxy hlx hry => ?_
  rw [live_setObject] at hlx hry
  by_cases hxa : a = x
  · have hyb : b = y := (ha.eq_iff hab hxy hl hlx hr hry).1 hxa
    subst hxa hyb
    obtain ⟨_, ho⟩ := hl.exists_object?
    obtain ⟨_, hp⟩ := hr.exists_object?
    exact ⟨o, p, object?_setObject_self ho o, object?_setObject_self hp p, hop⟩
  · have hyb : b ≠ y := fun hyb => hxa ((ha.eq_iff hab hxy hl hlx hr hry).2 hyb)
    rw [object?_setObject_of_ne hxa, object?_setObject_of_ne hyb]
    exact ha.object hxy hlx hry

/-! ### What scripts see -/

theorem same_eq {v' w' : Value} (hv : v.Alike β w) (hv' : v'.Alike β w') (hl : h1.LiveValue v)
    (hr : h2.LiveValue w)
    (hl' : h1.LiveValue v') (hr' : h2.LiveValue w') : v.same v' = w.same w' := by
  cases hv with
  | object hab =>
    cases hv' with
    | object hab' =>
      have := ha.eq_iff hab hab' hl hl' hr hr'
      simp only [Value.same, beq_eq_decide, this]
    | _ => rfl
  | _ => cases hv' <;> rfl

theorem chars?_eq (hab : β a b) (hl : h1.Live a) (hr : h2.Live b) : h1.chars? a = h2.chars? b := by
  obtain ⟨o, p, ho, hp, hop⟩ := ha.object hab hl hr
  unfold chars?
  rw [ho, hp]
  cases hop <;> rfl

theorem function?_rel (hab : β a b) (hl : h1.Live a) (hr : h2.Live b) :
    Option.Rel (Function.Alike β) (h1.function? a) (h2.function? b) := by
  obtain ⟨o, p, ho, hp, hop⟩ := ha.object hab hl hr
  unfold function?
  rw [ho, hp]
  cases hop with
  | function hfg => exact .some hfg
  | _ => exact .none

theorem nameOf_eq (hfg : f.Alike β g) (hl : ∀ x ∈ f.name, h1.Live x) (hr : ∀ x ∈ g.name, h2.Live x) :
    h1.nameOf f = h2.nameOf g := by
  unfold nameOf
  have hname := hfg.name
  generalize f.name = x at hname hl
  generalize g.name = y at hname hr
  cases hname with
  | none => rfl
  | some hab => exact ha.chars?_eq hab (hl _ rfl) (hr _ rfl)

theorem functionText_eq (hfg : f.Alike β g) (hl : ∀ x ∈ f.name, h1.Live x)
    (hr : ∀ x ∈ g.name, h2.Live x) : h1.functionText f = h2.functionText g := by
  unfold functionText
  rw [ha.nameOf_eq hfg hl hr]

theorem displayName_eq (hfg : f.Alike β g) (hl : ∀ x ∈ f.name, h1.Live x)
    (hr : ∀ x ∈ g.name, h2.Live x) : h1.displayName f = h2.displayName g := by
  unfold displayName
  rw [ha.nameOf_eq hfg hl hr]

theorem typeName?_eq (hv : v.Alike β w) (hl : h1.LiveValue v) (hr : h2.LiveValue w) :
    h1.typeName? v = h2.typeName? w := by
  cases hv with
  | object hab =>
    obtain ⟨o, p, ho, hp, hop⟩ := ha.object hab hl hr
    simp only [typeName?, ho, hp]
    cases hop <;> rfl
  | _ => rfl

variable (hs1 : h1.Sound) (hs2 : h2.Sound)
include hs1 hs2

theorem function (hab : β a b) (hl : h1.Live a) (hr : h2.Live b) {f : Function}
    (hf : h1.function? a = some f) :
    ∃ g, h2.function? b = some g ∧ f.Alike β g ∧ (∀ x ∈ f.name, h1.Live x) ∧
      ∀ x ∈ g.name, h2.Live x := by
  obtain ⟨o, p, ho, hp, hop⟩ := ha.object hab hl hr
  simp only [function?, ho] at hf
  cases hop with
  | @function f' g hfg =>
    cases hf
    exact ⟨g, by simp [function?, hp], hfg, fun x hx => hs1.closed hl ho x (mem_children_name hx),
      fun x hx => hs2.closed hr hp x (mem_children_name hx)⟩
  | _ => cases hf

theorem text?_eq (hv : v.Alike β w) (hl : h1.LiveValue v) (hr : h2.LiveValue w) :
    h1.text? v = h2.text? w := by
  cases hv with
  | @object a b hab =>
    obtain ⟨o, p, ho, hp, hop⟩ := ha.object hab hl hr
    simp only [text?, ho, hp, Option.bind_some]
    cases hop with
    | function hfg =>
      exact congrArg some
        (ha.functionText_eq hfg (fun x hx => hs1.closed hl ho x (mem_children_name hx))
        fun x hx => hs2.closed hr hp x (mem_children_name hx))
    | @closure f g us vs hfg hus =>
      cases hfg with
      | none => rfl
      | @some x y hxy =>
        have hlx : h1.Live x := hs1.closed hl ho x (by simp [Object.children])
        have hry : h2.Live y := hs2.closed hr hp y (by simp [Object.children])
        have hrel := ha.function?_rel hxy hlx hry
        simp only [objectText?, Option.bind_some]
        cases hf : h1.function? x with
        | none =>
          rw [hf] at hrel
          generalize h2.function? y = g at hrel ⊢
          cases hrel
          rfl
        | some f =>
          obtain ⟨g, hg, hfg, hname, hname'⟩ := ha.function hs1 hs2 hxy hlx hry hf
          rw [hg]
          exact congrArg some (ha.functionText_eq hfg hname hname')
    | _ => rfl
  | bool b => cases b <;> rfl
  | _ => rfl

end Alike

end Heap

end Parlance
