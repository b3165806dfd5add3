/-
  Shapes of functions under way.
-/
import Mathlib.Data.List.DropRight
import Mathlib.Data.List.Forall2
import Parlance.Proofs.Compiler.Triple

namespace Parlance

/-- What the limits of a function depend on. -/
structure Shape where
  size : Nat
  depth : Nat
  /-- The scope of each variable that is ready. -/
  depths : List (Option Nat)
  /-- The jumps that leave each open loop or choice. -/
  breaks : List (List Nat)

def Context.shape (c : Context) : Shape :=
  ⟨c.chunk.code.size, c.depth, c.locals.toList.map (·.depth), c.breakables.map (·.breakJumps.toList)⟩

namespace Shape

variable {a b c : Shape}

/-- Code and jumps may have been added. -/
instance : LE Shape where
  le a b := a.size ≤ b.size ∧ b.depth = a.depth ∧ b.depths = a.depths ∧
    List.Forall₂ (· <+: ·) a.breaks b.breaks

instance : Preorder Shape where
  le_refl a := ⟨le_rfl, rfl, rfl, List.forall₂_same.2 fun _ _ => List.prefix_rfl⟩
  le_trans _ _ _ h h' :=
    ⟨h.1.trans h'.1, h'.2.1.trans h.2.1, h'.2.2.1.trans h.2.2.1, List.forall₂_iff_get.2 (by
      obtain ⟨hlength, hget⟩ := List.forall₂_iff_get.1 h.2.2.2
      obtain ⟨hlength', hget'⟩ := List.forall₂_iff_get.1 h'.2.2.2
      exact ⟨hlength.trans hlength', fun i h1 h2 =>
        (hget i h1 (hlength ▸ h1)).trans (hget' i (hlength ▸ h1) h2)⟩)⟩

theorem le_of_size (h : a.size ≤ c.size) (hdepth : c.depth = a.depth) (hdepths : c.depths = a.depths)
    (hbreaks : c.breaks = a.breaks) : a ≤ c :=
  ⟨h, hdepth, hdepths, hbreaks ▸ List.forall₂_same.2 fun _ _ => List.prefix_rfl⟩

/-- With `n` more bytes of code. -/
def add (a : Shape) (n : Nat) : Shape := { a with size := a.size + n }

theorem add_mono (h : a ≤ b) (n : Nat) : a.add n ≤ b.add n := ⟨Nat.add_le_add_right h.1 n, h.2⟩

theorem le_add (a : Shape) (n : Nat) : a ≤ a.add n := le_of_size (Nat.le_add_right _ _) rfl rfl rfl

/-- Whether a variable belongs to a scope deeper than `d`. -/
def deeper (d : Nat) : Option Nat → Bool
  | some e => d < e
  | none => false

/-- The innermost scope ends: an instruction for each variable in it. -/
def endScope (a : Shape) : Shape :=
  let depths := a.depths.rdropWhile (deeper (a.depth - 1))
  { a with size := a.size + (a.depths.length - depths.length), depth := a.depth - 1, depths }

/-- The innermost loop or choice ends. -/
def endBreakable (a : Shape) : Shape := { a with breaks := a.breaks.tail }

/-- The variable declared last is ready. -/
def markReady (a : Shape) : Shape :=
  { a with depths := a.depths.modify (a.depths.length - 1) fun _ => some a.depth }

end Shape

/-- What has begun and is to end: a scope, a loop or choice, the declaration of a variable, the
script outside of scopes. -/
inductive Bracket where
  | scope | breakable | declaration | top
  deriving DecidableEq

namespace Shape

variable {a b : Shape}

/-- After the end of what has begun, the innermost first. -/
def close : List Bracket → Shape → Shape
  | [], a => a
  | .scope :: ps, a => close ps a.endScope
  | .breakable :: ps, a => close ps a.endBreakable
  | .declaration :: ps, a => close ps a.markReady
  | .top :: ps, a => close ps a

theorem endScope_mono (h : a ≤ b) : a.endScope ≤ b.endScope := by
  obtain ⟨hsize, hdepth, hdepths, hbreaks⟩ := h
  refine ⟨?_, congrArg (· - 1) hdepth, by simp only [endScope, hdepth, hdepths], hbreaks⟩
  simp only [endScope, hdepth, hdepths]
  omega

theorem endBreakable_mono (h : a ≤ b) : a.endBreakable ≤ b.endBreakable := by
  have htail : ∀ {xs ys : List (List Nat)}, List.Forall₂ (· <+: ·) xs ys →
    List.Forall₂ (· <+: ·) xs.tail ys.tail
    | _, _, .nil => .nil
    | _, _, .cons _ htail => htail
  exact ⟨h.1, h.2.1, h.2.2.1, htail h.2.2.2⟩

theorem markReady_mono (h : a ≤ b) : a.markReady ≤ b.markReady :=
  ⟨h.1, h.2.1, by simp only [markReady, h.2.1, h.2.2.1], h.2.2.2⟩

theorem close_mono (ps : List Bracket) (h : a ≤ b) : a.close ps ≤ b.close ps := by
  induction ps generalizing a b with
  | nil => exact h
  | cons p ps ih =>
    cases p with
    | scope => exact ih (endScope_mono h)
    | breakable => exact ih (endBreakable_mono h)
    | declaration => exact ih (markReady_mono h)
    | top => exact ih h

/-! ## Ready variables -/

/-- Every variable is ready, and those of inner scopes come last. -/
def Ready (a : Shape) : Prop :=
  ∃ ds : List Nat, a.depths = ds.map some ∧ ds.Pairwise (· ≤ ·) ∧ ∀ d ∈ ds, d ≤ a.depth

theorem Ready.mono (ha : a.Ready) (h : a ≤ b) : b.Ready := by
  obtain ⟨ds, hds, hsorted, hle⟩ := ha
  exact ⟨ds, h.2.2.1.trans hds, hsorted, by rwa [h.2.1]⟩

theorem rdropWhile_deeper {ds : List Nat} (hsorted : ds.Pairwise (· ≤ ·)) (m : Nat) :
    (ds.map some).rdropWhile (deeper m) = (ds.filter (· ≤ m)).map some := by
  induction ds using List.reverseRecOn with
  | nil => rfl
  | append_singleton ds d ih =>
    obtain ⟨hds, -, hlast⟩ := List.pairwise_append.1 hsorted
    rw [List.map_append, List.map_singleton]
    by_cases hd : m < d
    · rw [List.rdropWhile_concat_pos _ _ _ (by simpa [deeper] using hd), ih hds]
      simp [Nat.not_le.2 hd]
    · rw [List.rdropWhile_concat_neg _ _ _ (by simpa [deeper] using hd)]
      have hall : ∀ e ∈ ds, e ≤ m := fun e he => (hlast e he d (by simp)).trans (Nat.not_lt.1 hd)
      rw [List.filter_append, List.filter_eq_self.2 fun e he => by simpa using hall e he]
      simp [Nat.not_lt.1 hd]

theorem Ready.endScope (ha : a.Ready) : a.endScope.Ready := by
  obtain ⟨ds, hds, hsorted, -⟩ := ha
  refine ⟨ds.filter (· ≤ a.depth - 1), ?_, hsorted.filter _, fun d hd =>
    of_decide_eq_true (List.mem_filter.1 hd).2⟩
  simp only [Shape.endScope, hds]
  exact rdropWhile_deeper hsorted _

theorem Ready.endScope_deepen (ha : a.Ready) :
    ({ a with depth := a.depth + 1 } : Shape).endScope = a := by
  obtain ⟨ds, hds, hsorted, hle⟩ := ha
  have hkept : a.depths.rdropWhile (deeper a.depth) = a.depths := by
    rw [hds, rdropWhile_deeper hsorted, List.filter_eq_self.2 fun d hd => by simpa using hle d hd]
  simp only [Shape.endScope, Nat.add_sub_cancel, hkept, Nat.sub_self, Nat.add_zero]

/-- A variable that is added. -/
def push (a : Shape) : Shape := { a with depths := a.depths ++ [none] }

theorem markReady_push (a : Shape) :
    a.push.markReady = { a with depths := a.depths ++ [some a.depth] } := by
  have hlast : ∀ ds : List (Option Nat), (ds ++ [none]).modify ds.length (fun _ => some a.depth) =
      ds ++ [some a.depth] := by
    intro ds
    induction ds with
    | nil => rfl
    | cons d ds ih => exact congrArg (d :: ·) ih
  simp only [markReady, push, List.length_append, List.length_singleton, Nat.add_sub_cancel, hlast]

theorem markReady_markReady (a : Shape) : a.markReady.markReady = a.markReady := by
  simp only [markReady, List.length_modify, List.modify_modify_eq]
  rfl

theorem Ready.markReady_push (ha : a.Ready) : a.push.markReady.Ready := by
  obtain ⟨ds, hds, hsorted, hle⟩ := ha
  rw [Shape.markReady_push]
  refine ⟨ds ++ [a.depth], by simp [hds], ?_, ?_⟩
  · refine List.pairwise_append.2 ⟨hsorted, List.pairwise_singleton _ _, fun d hd e he => ?_⟩
    rw [List.mem_singleton.1 he]
    exact hle d hd
  · intro d hd
    rcases List.mem_append.1 hd with hd | hd
    · exact hle d hd
    · exact (List.mem_singleton.1 hd).le

theorem endScope_push (hpos : 0 < a.depth) : a.endScope ≤ a.push.markReady.endScope := by
  have hkept : (a.depths ++ [some a.depth]).rdropWhile (deeper (a.depth - 1)) = a.depths.rdropWhile
    (deeper (a.depth - 1)) :=
    List.rdropWhile_concat_pos _ _ _ (by simp only [deeper, decide_eq_true_eq]; omega)
  rw [markReady_push]
  refine le_of_size ?_ rfl ?_ rfl
  · simp only [endScope, hkept, List.length_append, List.length_singleton]
    omega
  · simp only [endScope, hkept]

/-- The brackets `ps` can end, and the variables are ready but for one that is being declared. -/
structure Settled (ps : List Bracket) (a : Shape) : Prop where
  ready : (if ps.head? = some .declaration then a.markReady else a).Ready
  deep : ps.count .scope ≤ a.depth
  top : .top ∈ ps → a.depth = ps.count .scope

theorem Settled.of_ready {ps qs : List Bracket} (ha : a.Settled ps) (hdepth : b.depth = a.depth)
    (hcount : qs.count .scope = ps.count .scope) (htop : .top ∈ qs → .top ∈ ps)
    (hready : (if qs.head? = some .declaration then b.markReady else b).Ready) : b.Settled qs :=
  ⟨hready, by rw [hcount, hdepth]; exact ha.deep,
    fun h => by rw [hcount, hdepth]; exact ha.top (htop h)⟩

theorem Settled.mono {ps : List Bracket} (ha : a.Settled ps) (h : a ≤ b) : b.Settled ps := by
  refine ha.of_ready h.2.1 rfl id ?_
  have hready := ha.ready
  split at hready <;> rename_i hhead
  · rw [if_pos hhead]
    exact hready.mono (markReady_mono h)
  · rw [if_neg hhead]
    exact hready.mono h

end Shape

/-- The shapes of the functions under way, that of now after the end of what has begun in it. -/
def Compilation.shapes (s : Compilation) (ps : List Bracket) : List Shape :=
  s.context.shape.close ps :: s.around.map Context.shape

/-- Code was added to the functions under way. -/
def Compilation.Spreads (s t : Compilation) : Prop := List.Forall₂ (· ≤ ·) (s.shapes []) (t.shapes [])

namespace Compilation

theorem Spreads.refl (s : Compilation) : s.Spreads s := List.forall₂_same.2 fun _ _ => le_rfl

theorem forall₂_le_trans {as bs cs : List Shape} (h : List.Forall₂ (· ≤ ·) as bs)
    (h' : List.Forall₂ (· ≤ ·) bs cs) : List.Forall₂ (· ≤ ·) as cs := by
  induction h generalizing cs with
  | nil => exact h'
  | cons hab _ ih =>
    cases h' with
    | cons hbc h' => exact .cons (hab.trans hbc) (ih h')

theorem spreads_context {s : Compilation} {c : Context} (h : s.context.shape ≤ c.shape) :
    s.Spreads { s with context := c } := .cons h (List.forall₂_same.2 fun _ _ => le_rfl)

end Compilation

/-! ## Names -/

theorem Context.shape_markCaptured (c : Context) (slot : Nat) :
    (c.markCaptured slot).shape = c.shape := by
  have hdepths : (c.markCaptured slot).locals.toList.map (·.depth) = c.locals.toList.map
      (·.depth) := by
    refine List.ext_getElem? fun i => ?_
    simp only [List.getElem?_map, Array.getElem?_toList, markCaptured, Array.getElem?_modify]
    split <;> simp [Function.comp_def]
  simp only [shape, hdepths]
  rfl

theorem Context.shape_addCapture (c : Context) (k : Capture) : (c.addCapture k).2.shape = c.shape := by
  unfold addCapture
  split
  · rfl
  · split <;> rfl

section

variable {γ : Type} {φ : Context → γ} (hadd : ∀ (c : Context) k, φ (c.addCapture k).2 = φ c)
  (hmark : ∀ (c : Context) slot, φ (c.markCaptured slot) = φ c)

include hadd

theorem Resolution.forward_eq (r : Resolution) (inner : Context) (k : Capture) :
    φ (r.forward inner k).inner = φ inner ∧ (r.forward inner k).around = r.around := by
  have hinner := hadd inner k
  unfold Resolution.forward
  split <;> simp_all

include hmark

/-- What does not depend on captures stays the same as a name is looked up. -/
theorem capture_eq (name : String) (inner : Context) (around : List Context) :
    φ (capture name inner around).inner = φ inner ∧ (capture name inner around).around.map φ =
      around.map φ := by
  induction around generalizing inner with
  | nil => exact ⟨rfl, rfl⟩
  | cons c cs ih =>
    rw [capture]
    split
    · obtain ⟨hinner, haround⟩ :=
        Resolution.forward_eq hadd ⟨none, inner, c.markCaptured _ :: cs, _⟩ inner ⟨_, true⟩
      exact ⟨hinner, by rw [haround]; simp [hmark]⟩
    · obtain ⟨hinner, haround⟩ := ih c
      dsimp only
      split
      · obtain ⟨hinner', haround'⟩ :=
          Resolution.forward_eq hadd
            ⟨none, inner, (capture name c cs).inner :: (capture name c cs).around,
            (capture name c cs).complaints⟩ inner ⟨_, false⟩
        exact ⟨hinner', by rw [haround']; simp [hinner, haround]⟩
      · exact ⟨rfl, by simp [hinner, haround]⟩

end

end Parlance
