/-
  Allocation.
-/
import Parlance.Heap.Collector

namespace Parlance.Heap

/-- A collection comes before this size. -/
def isDue (h : Heap) (size : Nat) : Bool := h.settings.stress || h.nextCollection < h.bytes + size

/-- Puts an object into the slot emptied last, or into a new one. -/
def register (h : Heap) (o : Object) : Ref × Heap :=
  let size := o.size
  let r : Ref := ⟨h.cells.size⟩
  let (slot, h) : Nat × Heap :=
    match h.free with
    | slot :: free => (slot, { h with free, slots := h.slots.setIfInBounds slot (some r) })
    | [] =>
      (h.slots.size,
        { h with slots := h.slots.push (some r), generations := h.generations.push 0 })
  let cells := h.cells.push { object := o, slot, charged := size }
  let h := { h with cells, bytes := h.bytes + size }
  (r, h.trace fun _ => s!"slot {slot} allocate {size} for " ++ o.kindName)

/-- Puts an object into the registry, after a collection where one is due, in which it is no root.
-/
def allocate (h : Heap) (roots : Roots) (o : Object) : Ref × Heap :=
  let h := if h.isDue o.size then h.collect roots else h
  h.register o

/-- Charges an object with its size of now. -/
def recharge (h : Heap) (r : Ref) : Heap :=
  match h.cells[r.serial]? with
  | none => h
  | some cell =>
    let size : Int := cell.object.size
    { h with
      bytes := h.bytes + size - cell.charged
      cells := h.cells.setIfInBounds r.serial { cell with charged := size } }

/-- The string with a given text, of which there is one only. -/
def intern (h : Heap) (roots : Roots) (text : String) : Symbol × Heap :=
  let hash := hashText text
  match h.strings.findText? text hash with
  | some key => (key, h)
  | none =>
    let (r, h) := h.allocate roots (.text text hash)
    let key : Symbol := ⟨r, text, hash⟩
    (key, { h with strings := (h.strings.set key ()).2 })

/-- Gives up every object. -/
def freeAll (h : Heap) : Heap :=
  let cells := h.slots.foldl (fun cells s =>
    match s with
    | some r => cells.modify r.serial fun c => { c with object := c.object.released }
    | none => cells) h.cells
  { h with
    cells
    slots := #[]
    generations := #[]
    free := []
    strings := {}
    bytes := 0
    nextCollection := h.settings.threshold }

/-! ## Functions -/

/-- Changes a function in place. -/
def modifyFunction (h : Heap) (r : Ref) (change : Function → Function) : Heap :=
  match h.function? r with
  | some f => h.setObject r (.function (change f))
  | none => h

def addConstant (h : Heap) (r : Ref) (v : Value) : Heap :=
  h.modifyFunction r fun f => { f with chunk := f.chunk.addConstant v }

mutual

/-- Lays out a compiled function with its constants, and charges for it if `charge` says so. The
functions begun are pinned until they are complete. -/
def layOut (charge : Bool) (roots : Roots) : Proto → Heap → Ref × Heap
  | ⟨name, arity, upvalueCount, code, lines, constants⟩, h =>
    let (r, h) := h.allocate roots (.function {})
    let roots := { roots with pins := roots.pins ++ [r] }
    let (name, h) : Option Ref × Heap :=
      match name with
      | some s =>
        let (key, h) := h.intern roots s
        (some key.ref, h)
      | none => (none, h)
    let h := h.modifyFunction r fun _ =>
      { name, arity, upvalueCount, chunk := { code, lines, constants := #[] } }
    let h := layOutAll charge roots r constants h
    (r, if charge then h.recharge r else h)

def layOutAll (charge : Bool) (roots : Roots) (r : Ref) : List Constant → Heap → Heap
  | [], h => h
  | k :: ks, h =>
    let (v, h) := layOutConstant charge roots k h
    layOutAll charge roots r ks (h.addConstant r v)

/-- The value of a constant. A native of this kind has no routine behind it. -/
def layOutConstant (charge : Bool) (roots : Roots) : Constant → Heap → Value × Heap
  | .nul, h => (.nul, h)
  | .bool b, h => (.bool b, h)
  | .number x, h => (.number x, h)
  | .text s, h =>
    let (key, h) := h.intern roots s
    (.object key.ref, h)
  | .native name, h =>
    let (r, h) := h.allocate roots (.native ⟨name, 0, none⟩)
    (.object r, h)
  | .function f, h =>
    let (r, h) := layOut charge roots f h
    (.object r, h)

end

/-! ## Scripts -/

/-- A heap that follows a compilation. -/
structure Building where
  heap : Heap
  /-- The functions begun, the innermost first. -/
  pending : List Ref := []
  /-- The function completed last. -/
  finished : Option Ref := none
  /-- Some name is another constant on the heap than in the code. -/
  astray : Bool := false

/-- The index of a string among the constants of a function, to which it is added if it is not
there. It is looked for by its identity. -/
def refer (h : Heap) (r key : Ref) : Nat × Heap :=
  let chunk := ((h.function? r).getD {}).chunk
  match chunk.firstIndex? (·.isObject key) with
  | some index => (index, h)
  | none => (chunk.constants.size, h.addConstant r (.object key))

def noteListing (h : Heap) (r : Ref) : Heap :=
  match h.function? r with
  | none => h
  | some f => h.note ((listChunk? h.pool f.chunk (h.displayName f)).getD "")

/-- Takes one step. `print` asks for listings of the functions that are clean. -/
def Building.step (roots : Roots) (print : Bool) (b : Building) : Build → Building
  | .enter name =>
    let (r, heap) := b.heap.allocate { roots with pending := b.pending } (.function {})
    let pending := r :: b.pending
    match name with
    | none => { b with heap, pending }
    | some s =>
      let (key, heap) := heap.intern { roots with pending } s
      { b with heap := heap.modifyFunction r fun f => { f with name := some key.ref }, pending }
  | .constant k =>
    let (v, heap) := layOutConstant true { roots with pending := b.pending } k b.heap
    match b.pending with
    | r :: _ => { b with heap := heap.addConstant r v }
    | [] => { b with heap }
  | .name s index =>
    let (key, heap) := b.heap.intern { roots with pending := b.pending } s
    match b.pending with
    | r :: _ =>
      let (found, heap) := heap.refer r key.ref
      { b with heap, astray := b.astray || found != index }
    | [] => { b with heap }
  | .leave p clean =>
    match b.pending with
    | [] => b
    | r :: pending =>
      let heap := b.heap.modifyFunction r fun f =>
        { f with
          arity := p.arity
          upvalueCount := p.upvalueCount
          chunk := { f.chunk with code := p.code, lines := p.lines } }
      let heap := heap.recharge r
      let heap := if print && clean then heap.noteListing r else heap
      let heap := match pending with
        | outer :: _ => heap.addConstant outer (.object r)
        | [] => heap
      { b with heap, pending, finished := some r }

/-- Takes the steps of a compilation. The last function completed is the script. -/
def buildAll (h : Heap) (roots : Roots) (print : Bool) (builds : List Build) : Building :=
  builds.foldl (Building.step roots print) { heap := h }

end Parlance.Heap
