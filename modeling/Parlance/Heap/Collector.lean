/-
  Mark and sweep.
-/
import Parlance.Heap.Basic
import Parlance.Stack
import Parlance.Number.Binary

namespace Parlance

/-- Where marking begins. -/
structure Roots where
  stack : Stack := {}
  frames : Array Frame := #[]
  openUpvalues : List Ref := []
  globals : Table Value := {}
  pending : List Ref := []
  pins : List Ref := []
  deriving Inhabited

def objectsOf (vs : List Value) : List Ref :=
  vs.filterMap fun
    | .object r => some r
    | _ => none

def Roots.refs (r : Roots) : List Ref :=
  objectsOf r.stack.toList ++ r.frames.toList.map (·.closure) ++ r.openUpvalues ++
    r.globals.entriesList.flatMap (fun e => e.1.ref :: objectsOf [e.2]) ++ r.pending ++ r.pins

/-- A heap, and its gray objects. -/
structure Marking where
  heap : Heap
  /-- Marked objects whose references are still to be followed, the latest first. -/
  gray : List Ref := []

namespace Marking

def mark (m : Marking) (r : Ref) : Marking :=
  match m.heap.cells[r.serial]? with
  | none => m
  | some cell =>
    if cell.marked then m
    else
      let ⟨heap, gray⟩ := m
      let heap := heap.trace fun _ => s!"slot {cell.slot} mark " ++ cell.object.kindName
      ⟨{ heap with cells := heap.cells.setIfInBounds r.serial { cell with marked := true } },
        r :: gray⟩

/-- Marks what gray objects refer to. -/
def drain : (fuel : Nat) → Marking → Marking
  | 0, m => m
  | fuel + 1, m =>
    match m with
    | ⟨heap, []⟩ => ⟨heap, []⟩
    | ⟨heap, r :: gray⟩ =>
      let children := ((heap.object? r).map Object.children).getD []
      drain fuel (children.foldl mark ⟨heap, gray⟩)

end Marking

namespace Heap

/-- Marks all that the roots reach. An object turns gray once at most. -/
def markFrom (h : Heap) (roots : Roots) : Heap :=
  let m := roots.refs.foldl Marking.mark ⟨h, []⟩
  (m.drain m.heap.cells.size).heap

def isMarked (h : Heap) (r : Ref) : Bool := ((h.cells[r.serial]?).map (·.marked)).getD false

/-- Takes an object out of its slot. -/
def release (h : Heap) (i : Nat) (r : Ref) (cell : Cell) : Heap :=
  { h with
    cells := h.cells.setIfInBounds r.serial { cell with object := cell.object.released }
    slots := h.slots.setIfInBounds i none
    generations := h.generations.modify i (· + 1)
    free := i :: h.free
    bytes := h.bytes - cell.charged }

/-- Unmarks the object in slot `i`, or releases it if it bears no mark. The flag says that one was
released. -/
def sweepSlot (h : Heap) (i : Nat) : Bool × Heap :=
  match (h.slots[i]?).getD none with
  | none => (false, h)
  | some r =>
    match h.cells[r.serial]? with
    | none => (false, h)
    | some cell =>
      if cell.marked then
        (false, { h with cells := h.cells.setIfInBounds r.serial { cell with marked := false } })
      else (true, h.release i r cell)

/-- Sweeps slot after slot. -/
def sweepFrom : (count i : Nat) → (freed : Nat) → Heap → Nat × Heap
  | 0, _, freed, h => (freed, h)
  | count + 1, i, freed, h =>
    match h.sweepSlot i with
    | (true, h) => sweepFrom count (i + 1) (freed + 1) h
    | (false, h) => sweepFrom count (i + 1) freed h

/-- The bytes that call for the next collection, with `bytes` live ones now. -/
def allowance (s : HeapSettings) (bytes : Int) : Int :=
  max (Number.toWord (Number.ofInt bytes * s.growth)) s.threshold

/-- Marks what the roots reach, forgets the interned strings that were not reached, and sweeps the
rest. -/
def collect (h : Heap) (roots : Roots) : Heap :=
  let before := h.bytes
  let h := h.trace fun _ => "-- gc begin"
  let h := h.markFrom roots
  let (dropped, strings) := h.strings.removeUnless fun key => h.isMarked key.ref
  let h := { h with strings }
  let (freed, h) := h.sweepFrom h.slots.size 0 0
  let next := allowance h.settings h.bytes
  let h := { h with nextCollection := next, collections := h.collections + 1 }
  let after := h.bytes
  h.trace fun _ => s!"-- gc end: collected {before - after} bytes (from {before} to {after}), " ++
    s!"{freed} objects, {dropped} interned strings, next at {next}"

end Heap

end Parlance
