/-
  Open variables on machines that run any code.

  Nothing is assumed of the code, nor that what it refers to is there.
-/
import Parlance.Proofs.Machine.Histories

namespace Parlance

-- no statement here looks into compilations or collections
attribute [local irreducible] compileTokens Heap.collect

/-! ## Open variables -/

/-- What is left of a variable when it is swept is open if the variable was. -/
@[simp] theorem Object.openSlot?_released (o : Object) : o.released.openSlot? = o.openSlot? := by
  cases o <;> rfl

theorem Object.openSlot?_eq_some {o : Object} {i : Nat} (ho : o.openSlot? = some i) :
    ∃ u, o = .upvalue u ∧ u.isOpen = true ∧ u.slot = i := by
  cases o with
  | upvalue u =>
    simp only [openSlot?, Option.ite_none_right_eq_some, Option.some.injEq] at ho
    exact ⟨u, rfl, ho⟩
  | _ => cases ho

namespace Heap

variable {h h' h'' : Heap} {r x : Ref} {o : Object}

/-- The slot of a variable that is open. -/
def openSlot? (h : Heap) (r : Ref) : Option Nat := (h.object? r).bind Object.openSlot?

theorem openSlot?_eq (ho : h.object? r = some o) : h.openSlot? r = o.openSlot? := by
  simp [openSlot?, ho]

theorem openSlot?_eq_some {i : Nat} (hi : h.openSlot? r = some i) :
    ∃ u, h.object? r = some (.upvalue u) ∧ u.isOpen = true ∧ u.slot = i := by
  obtain ⟨o, ho, hslot⟩ := Option.bind_eq_some_iff.1 hi
  obtain ⟨u, rfl, hu⟩ := Object.openSlot?_eq_some hslot
  exact ⟨u, ho, hu⟩

/-- The same variables are open, and no object is new. -/
structure SameOpen (h h' : Heap) : Prop where
  size_eq : h'.cells.size = h.cells.size
  slot_eq : ∀ r, h'.openSlot? r = h.openSlot? r

theorem SameOpen.refl (h : Heap) : h.SameOpen h := ⟨rfl, fun _ => rfl⟩

theorem SameOpen.trans (h1 : h.SameOpen h') (h2 : h'.SameOpen h'') : h.SameOpen h'' :=
  ⟨h2.size_eq.trans h1.size_eq, fun r => (h2.slot_eq r).trans (h1.slot_eq r)⟩

theorem Twin.sameOpen (ht : h.Twin h') : h.SameOpen h' :=
  ⟨ht.size_eq, fun r => by unfold openSlot?; rw [ht.object_eq]⟩

theorem openSlot?_setCell {cell c : Cell} (hc : h.cells[r.serial]? = some cell)
    (hslot : c.object.openSlot? = cell.object.openSlot?)
    (hcells : h'.cells = h.cells.setIfInBounds r.serial c) : h.SameOpen h' := by
  refine ⟨by simp [hcells], fun x => ?_⟩
  have heq : ∀ g : Heap, g.openSlot? x =
      ((g.cells[x.serial]?).map fun k => k.object.openSlot?).join := by
    intro g
    unfold openSlot? object?
    cases g.cells[x.serial]? <;> rfl
  rw [heq, heq, hcells]
  exact congrArg Option.join (view_set_of_eq hc hslot x)

theorem sameOpen_sweepSlot (h : Heap) (i : Nat) : h.SameOpen (h.sweepSlot i).2 := by
  unfold sweepSlot
  split
  · exact .refl h
  · split
    · exact .refl h
    · rename_i cell hc
      split
      · exact openSlot?_setCell (c := { cell with marked := false }) hc rfl rfl
      · exact openSlot?_setCell hc (Object.openSlot?_released _) rfl

theorem sameOpen_sweepFrom (count i freed : Nat) (h : Heap) :
    h.SameOpen (h.sweepFrom count i freed).2 :=
  sweepFrom_induct (P := fun _ g => h.SameOpen g) (fun hg => hg.trans (sameOpen_sweepSlot _ _))
    count freed (.refl h)

theorem sameOpen_collect (h : Heap) (roots : Roots) : h.SameOpen (h.collect roots) := by
  obtain ⟨begun, hended⟩ := h.agrees_collect roots
  obtain ⟨hmarks, -⟩ := (h.trace begun).markFrom_spec roots
  have hmarked : h.SameOpen ((h.trace begun).markFrom roots) :=
    (h.agrees_trace begun).toTwin.sameOpen.trans hmarks.twin.sameOpen
  generalize (h.trace begun).markFrom roots = g at hended hmarked
  have hweeded : h.SameOpen g.weeded := ⟨hmarked.size_eq, hmarked.slot_eq⟩
  have hswept := sameOpen_sweepFrom g.weeded.slots.size 0 0 g.weeded
  exact (hweeded.trans hswept).trans hended.toTwin.sameOpen

theorem openSlot?_of_size_le (hle : h.cells.size ≤ r.serial) : h.openSlot? r = none := by
  simp [openSlot?, object?, hle]

/-- The variables that are open after an allocation: those that were, and the new object if it is
one. -/
theorem openSlot?_allocate (h : Heap) (roots : Roots) (o : Object) :
    h.cells.size ≤ (h.allocate roots o).1.serial ∧
    h.cells.size ≤ (h.allocate roots o).2.cells.size ∧
    ∀ x, (h.allocate roots o).2.openSlot? x = if x = (h.allocate roots o).1 then o.openSlot? else
      h.openSlot? x := by
  obtain ⟨g, hg, heq⟩ := h.allocate_eq roots o
  have hsame : h.SameOpen g := by
    rcases hg with rfl | rfl
    · exact .refl _
    · exact h.sameOpen_collect roots
  obtain ⟨message, hreg⟩ := g.register_eq o
  rw [heq, hreg]
  have hle := Nat.le_of_eq hsame.size_eq.symm
  refine ⟨hle, ?_, fun x => ?_⟩
  · rw [(agrees_trace _ message).toTwin.size_eq]
    simpa using Nat.le_succ_of_le hle
  rw [(agrees_trace _ message).toTwin.sameOpen.slot_eq, ← hsame.slot_eq x]
  unfold openSlot? object?
  simp only [claimed_cells, Array.getElem?_push]
  by_cases hx : x = ⟨g.cells.size⟩
  · simp [hx]
  · have hne : x.serial ≠ g.cells.size := fun hs => hx (Ref.serial_inj.1 hs)
    simp [hx, hne]

/-- The same variables are open; objects may be new. -/
def Opened (h h' : Heap) : Prop := ∀ r, h'.openSlot? r = h.openSlot? r

theorem Opened.trans (h1 : h.Opened h') (h2 : h'.Opened h'') : h.Opened h'' :=
  fun r => (h2 r).trans (h1 r)

theorem opened_allocate (h : Heap) (roots : Roots) (ho : o.openSlot? = none) :
    h.Opened (h.allocate roots o).2 := by
  obtain ⟨hfresh, -, hall⟩ := h.openSlot?_allocate roots o
  intro x
  rw [hall]
  split
  · rename_i hx
    rw [ho, hx, openSlot?_of_size_le hfresh]
  · rfl

theorem opened_intern (h : Heap) (roots : Roots) (text : String) :
    h.Opened (h.intern roots text).2 := by
  unfold intern
  dsimp only
  split
  · exact fun _ => rfl
  · exact h.opened_allocate roots rfl

theorem opened_setObject {o' : Object} (ho : h.object? r = some o)
    (hslot : o'.openSlot? = o.openSlot?) : h.Opened (h.setObject r o') := by
  intro x
  unfold openSlot?
  rw [object?_setObject]
  split
  · rename_i hrx
    subst hrx
    simp [ho, hslot]
  · rfl

theorem opened_modifyFunction (h : Heap) (r : Ref) (change : Function → Function) :
    h.Opened (h.modifyFunction r change) := by
  unfold modifyFunction function?
  split
  · rename_i f hf
    split at hf
    · rename_i ho
      exact opened_setObject ho rfl
    · cases hf
  · exact fun _ => rfl

theorem opened_noteListing (h : Heap) (r : Ref) : h.Opened (h.noteListing r) := by
  unfold noteListing
  split
  · exact fun _ => rfl
  · exact (h.agrees_note _).toTwin.sameOpen.slot_eq

theorem layouts_opened (h : Heap) (F : Object → Prop) (R : Unit → List Ref) :
    Layouts F R fun _ _ h' => h.Opened (h' ()) where
  plain ho _ _ := ho
  intern ho _ s := ho.trans (opened_intern _ _ s)
  native ho _ _ _ := ho.trans (opened_allocate _ _ rfl)
  function ho _ := ho.trans (opened_allocate _ _ rfl)
  name ho := ho.trans (opened_modifyFunction _ _ _)
  start _ _ ho _ := ho.trans (opened_modifyFunction _ _ _)
  header _ ho := ho.trans (opened_modifyFunction _ _ _)
  constant ho := ho.trans (opened_modifyFunction _ _ _)
  recharge ho := ho.trans (agrees_recharge _ _).toTwin.sameOpen.slot_eq
  note r ho := ho.trans (opened_noteListing _ (r ()))
  drop ho := ho

theorem opened_layOut (h : Heap) (roots : Roots) (p : Proto) : h.Opened (h.layOut true roots p).2 := by
  have hp : p.Admitted fun _ => True := p.admitted_of_native fun _ => trivial
  exact (h.layouts_opened _ fun _ => roots.refs).script (h := fun _ => h) (fun _ => rfl) hp

theorem opened_buildAll (h : Heap) (roots : Roots) (print : Bool) {F : Object → Prop}
    {builds : List Build}
    (hbuilds : ∀ t ∈ builds, t.Admitted F) : h.Opened (h.buildAll roots print builds).heap := by
  obtain ⟨_, ⟨_, _, h', fin, hb, -, hdone, -⟩, -⟩ :=
    (h.layouts_opened F fun _ => (withPending roots []).refs).steps_single print
    hbuilds (Layouts.planned_start (h := fun _ => h) fun _ => rfl)
  rw [Heap.buildAll, congrFun hb ()]
  exact hdone

end Heap

/-! ## Machines -/

namespace Machine

variable {m m' m'' : Machine}

/-- The list of open variables has each of them once. -/
structure Tethered (m : Machine) : Prop where
  mem_iff : ∀ r, r ∈ m.openUpvalues ↔ (m.heap.openSlot? r).isSome
  nodup : m.openUpvalues.Nodup

/-- The calls keep their windows, and the open variables their slots. -/
structure Keeps (m m' : Machine) : Prop where
  bases_eq : m'.frames.map (·.base) = m.frames.map (·.base)
  opens_eq : m'.openUpvalues = m.openUpvalues
  opened : m.heap.Opened m'.heap

theorem Keeps.refl (m : Machine) : m.Keeps m := ⟨rfl, rfl, fun _ => rfl⟩

theorem Keeps.trans (h1 : m.Keeps m') (h2 : m'.Keeps m'') : m.Keeps m'' :=
  ⟨h2.bases_eq.trans h1.bases_eq, h2.opens_eq.trans h1.opens_eq, h1.opened.trans h2.opened⟩

theorem Keeps.of_eq (hframes : m'.frames = m.frames) (hopens : m'.openUpvalues = m.openUpvalues)
    (hheap : m'.heap = m.heap) : m.Keeps m' :=
  ⟨by rw [hframes], hopens, fun _ => by rw [hheap]⟩

theorem Tethered.keeps (hm : m.Tethered) (hk : m.Keeps m') : m'.Tethered :=
  ⟨fun r => by rw [hk.opens_eq, hk.opened, hm.mem_iff], hk.opens_eq ▸ hm.nodup⟩

/-- The stack stays as well. -/
structure Same (m m' : Machine) : Prop extends Keeps m m' where
  stack_eq : m'.stack = m.stack

theorem Same.refl (m : Machine) : m.Same m := ⟨.refl m, rfl⟩

theorem Same.trans (h1 : m.Same m') (h2 : m'.Same m'') : m.Same m'' :=
  ⟨h1.toKeeps.trans h2.toKeeps, h2.stack_eq.trans h1.stack_eq⟩

end Machine

/-! ## Computations that leave the stack alone -/

namespace Exec

variable {α β : Type} {m : Machine} {x : Exec α} {g : α → Exec β}

/-- From `m` on the computation keeps to `R`, and it ends early in faults only. -/
def Holds (R : Machine → Machine → Prop) (x : Exec α) (m : Machine) : Prop :=
  match x m with
  | .ok _ m' | .error (.fault _) m' => R m m'
  | .error (.failed _) _ => False

/-- The computation leaves stack, calls and open variables alone, from any machine on. -/
class Calm (x : Exec α) : Prop where
  run : ∀ m, x.Holds Machine.Same m

theorem Holds.mono {R S : Machine → Machine → Prop} (hx : x.Holds R m)
    (hle : ∀ {m'}, R m m' → S m m') : x.Holds S m := by
  unfold Holds at *
  split at hx
  · exact hle hx
  · exact hle hx
  · exact hx

/-- Leaving stack, calls and open variables alone is a custom. -/
def calm : Custom where
  leads := Machine.Same
  halts
    | .fault _ => True
    | .failed _ => False

instance (priority := low) calm_of_obeys [hx : Obeys calm x] : Calm x := by
  refine ⟨fun m => ?_⟩
  have hrun := hx.run m
  unfold ObeysFrom at hrun
  unfold Holds
  cases hxm : x m with
  | ok a m' =>
    rw [hxm] at hrun
    exact hrun
  | error e m' =>
    rw [hxm] at hrun
    cases e with
    | failed e => exact hrun.1
    | fault f => exact hrun.2

instance law_calm : Law calm where
  refl := .refl
  trans := .trans
  fault := trivial
  jumpTo ip := by
    refine .of_ok fun m => ⟨_, _, rfl, ⟨?_, rfl, fun _ => rfl⟩, rfl⟩
    refine Array.ext_getElem? fun i => ?_
    simp only [Array.getElem?_map, Array.getElem?_modify]
    split
    · cases m.frames[i]? <;> rfl
    · rfl
  intern s := .of_ok fun m => ⟨_, _, rfl, ⟨rfl, rfl, m.heap.opened_intern m.roots s⟩, rfl⟩
  note message := .of_ok fun m =>
    ⟨_, _, rfl, ⟨rfl, rfl, (m.heap.agrees_note message).toTwin.sameOpen.slot_eq⟩, rfl⟩
  allocate {o} _ hnot := .of_ok fun m => by
    have ho : o.openSlot? = none := by
      cases o with
      | upvalue u => exact (hnot u rfl).elim
      | _ => rfl
    exact ⟨_, _, rfl, ⟨rfl, rfl, m.heap.opened_allocate m.roots ho⟩, rfl⟩
  readClock := .of_ok fun _ => ⟨_, _, rfl, .of_eq rfl rfl rfl, rfl⟩
  drawNumber := .of_ok fun _ => ⟨_, _, rfl, .of_eq rfl rfl rfl, rfl⟩

end Exec

/-! ## Routines of the host -/

/-- The routines leave calls and open variables alone, and end early in faults only. The stack is
theirs. -/
class SparesHost (host : Host) : Prop where
  routine : ∀ r ∈ host, ∀ name vs m, Exec.Holds Machine.Keeps (r name vs) m

instance sparesHost_builtins : SparesHost Native.builtinLibrary.host where
  routine r hr name vs m := by
    have hobeys : Exec.Obeys Exec.calm (r name vs) := Native.obeys_of_mem_host hr name vs
    exact ((inferInstance : Exec.Calm (r name vs)).run m).mono (·.toKeeps)

end Parlance
