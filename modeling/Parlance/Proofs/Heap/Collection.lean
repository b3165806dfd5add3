/-
  Collections.

  Marking is done when no object is gray. Every object turns gray once, so the number of objects
  that are unmarked or gray bounds the work.
-/
import Parlance.Proofs.Heap.Registry

namespace Parlance

variable {h h' : Heap} {r x : Ref} {roots : List Ref} {m : Marking} {g : Heap}

namespace Heap

theorem view_set {β : Type} (f : Cell → β) {cell : Cell} (hc : h.cells[r.serial]? = some cell)
    (cell' : Cell) (x : Ref) : ((h.cells.setIfInBounds r.serial cell')[x.serial]?).map f =
      if r = x then some (f cell') else (h.cells[x.serial]?).map f := by
  have hlt := (Array.getElem?_eq_some_iff.1 hc).1
  rw [Array.getElem?_setIfInBounds]
  by_cases heq : r = x
  · subst heq
    simp [hlt]
  · have : r.serial ≠ x.serial := fun hs => heq (Ref.serial_inj.1 hs)
    simp [heq, this]

theorem view_set_of_eq {β : Type} {f : Cell → β} {cell cell' : Cell}
    (hc : h.cells[r.serial]? = some cell) (hf : f cell' = f cell) (x : Ref) :
    ((h.cells.setIfInBounds r.serial cell')[x.serial]?).map f = (h.cells[x.serial]?).map f := by
  rw [view_set f hc]
  split
  · rename_i heq
    simp [← heq, hc, hf]
  · rfl

end Heap

/-! ## Marking -/

namespace Marking

/-- How many objects there are to follow at most. -/
def room (m : Marking) : Nat := m.heap.cells.countP (!·.marked) + m.gray.length

theorem mark_of_marked (hm : m.heap.isMarked r = true) : m.mark r = m := by
  unfold mark
  cases hc : m.heap.cells[r.serial]? with
  | none => rfl
  | some cell =>
    have hmarked : cell.marked = true := by simpa [Heap.isMarked, hc] using hm
    simp [hmarked]

theorem mark_of_absent (hlt : m.heap.cells.size ≤ r.serial) : m.mark r = m := by
  unfold mark
  rw [Array.getElem?_eq_none hlt]

theorem mark_of_unmarked (hlt : r.serial < m.heap.cells.size) (hm : m.heap.isMarked r = false) :
    m.heap.Twin (m.mark r).heap ∧
    (∀ x, (m.mark r).heap.isMarked x = true ↔ x = r ∨ m.heap.isMarked x = true) ∧
      (m.mark r).gray = r :: m.gray ∧ (m.mark r).room = m.room := by
  obtain ⟨heap, gray⟩ := m
  have hc : heap.cells[r.serial]? = some heap.cells[r.serial] := Array.getElem?_eq_getElem hlt
  have hunmarked : heap.cells[r.serial].marked = false := by simpa [Heap.isMarked, hc] using hm
  generalize hcell : heap.cells[r.serial] = cell at hc hunmarked
  obtain ⟨message, hmark⟩ : ∃ message, mark ⟨heap, gray⟩ r = ⟨{ heap.trace message with
      cells := (heap.trace message).cells.setIfInBounds r.serial { cell with marked := true } },
        r :: gray⟩ := by
    exact ⟨fun _ => s!"slot {cell.slot} mark " ++ cell.object.kindName, by simp [mark, hc, hunmarked]⟩
  have htrace : (heap.trace message).cells = heap.cells := by unfold Heap.trace; split <;> rfl
  have ha := heap.agrees_trace message
  rw [hmark, htrace]
  refine ⟨⟨by simp, Heap.view_set_of_eq hc rfl, Heap.view_set_of_eq hc rfl, ha.slots_eq, ha.free_eq,
    ha.generations_eq, ha.strings_eq, ha.settings_eq⟩, fun x => ?_, rfl, ?_⟩
  · simp only [Heap.isMarked, Array.getElem?_setIfInBounds]
    by_cases hx : r.serial = x.serial
    · have := Heap.Ref.serial_inj.1 hx
      subst this
      simp [hlt]
    · have hne : x ≠ r := fun heq => hx (by rw [heq])
      simp [hx, hne]
  · have hpos : 0 < heap.cells.countP (!·.marked) :=
      Array.countP_pos_iff.2 ⟨cell, by rw [← hcell]; exact Array.getElem_mem hlt, by simp [hunmarked]⟩
    simp only [room, List.length_cons]
    rw [Array.setIfInBounds_def, dif_pos hlt, Array.countP_set hlt, hcell]
    simp [hunmarked]
    omega

end Marking

/-- Marking that began with the heap `h`: of the objects marked since, only those in `todo` and the
gray ones can have unmarked children. -/
structure Marks (h : Heap) (roots : List Ref) (todo : Ref → Prop) (m : Marking) : Prop where
  twin : h.Twin m.heap
  mono : ∀ {r}, h.isMarked r = true → m.heap.isMarked r = true
  sound : ∀ {r}, m.heap.isMarked r = true → h.isMarked r = true ∨ h.Reach roots r
  gray : ∀ {r}, r ∈ m.gray → m.heap.isMarked r = true ∧ h.isMarked r = false
  done : ∀ {r o}, m.heap.isMarked r = true → h.isMarked r = false → r ∉ m.gray → ¬ todo r →
    h.object? r = some o → ∀ c ∈ o.children, c.serial < h.cells.size → m.heap.isMarked c = true

namespace Marks

variable {todo : Ref → Prop}

theorem mark (hm : Marks h roots todo m) (hr : h.Reach roots r) :
    Marks h roots todo (m.mark r) ∧ (m.mark r).room = m.room ∧
      (∀ {x}, m.heap.isMarked x = true → (m.mark r).heap.isMarked x = true) ∧
      (r.serial < h.cells.size → (m.mark r).heap.isMarked r = true) := by
  by_cases hlt : r.serial < m.heap.cells.size
  · cases hmarked : m.heap.isMarked r with
    | true =>
      rw [Marking.mark_of_marked hmarked]
      exact ⟨hm, rfl, fun hx => hx, fun _ => hmarked⟩
    | false =>
      obtain ⟨htwin, hiff, hgray, hroom⟩ := Marking.mark_of_unmarked hlt hmarked
      have hgrow : ∀ {x}, m.heap.isMarked x = true → (m.mark r).heap.isMarked x = true := fun hx =>
        (hiff _).2 (Or.inr hx)
      refine ⟨⟨hm.twin.trans htwin, fun hx => hgrow (hm.mono hx), ?_, ?_, ?_⟩, hroom, hgrow,
        fun _ => (hiff r).2 (Or.inl rfl)⟩
      · intro x hx
        rcases (hiff x).1 hx with rfl | hx
        · exact Or.inr hr
        · exact hm.sound hx
      · intro x hx
        rw [hgray] at hx
        rcases List.mem_cons.1 hx with rfl | hx
        · refine ⟨(hiff x).2 (Or.inl rfl), ?_⟩
          cases hbefore : h.isMarked x with
          | false => rfl
          | true => rw [hm.mono hbefore] at hmarked; cases hmarked
        · exact ⟨hgrow (hm.gray hx).1, (hm.gray hx).2⟩
      · intro x o hx hnew hngray hntodo ho c hc hclt
        rw [hgray, List.mem_cons, not_or] at hngray
        rcases (hiff x).1 hx with heq | hx
        · exact (hngray.1 heq).elim
        · exact hgrow (hm.done hx hnew hngray.2 hntodo ho c hc hclt)
  · rw [Marking.mark_of_absent (Nat.not_lt.1 hlt)]
    exact ⟨hm, rfl, fun hx => hx, fun hlt' => (hlt (hm.twin.size_eq ▸ hlt')).elim⟩

theorem foldl_mark (l : List Ref) (hm : Marks h roots todo m) (hl : ∀ r ∈ l, h.Reach roots r) :
    Marks h roots todo (l.foldl Marking.mark m) ∧ (l.foldl Marking.mark m).room = m.room ∧
      (∀ {x}, m.heap.isMarked x = true → (l.foldl Marking.mark m).heap.isMarked x = true) ∧
      ∀ r ∈ l, r.serial < h.cells.size → (l.foldl Marking.mark m).heap.isMarked r = true := by
  induction l generalizing m with
  | nil => exact ⟨hm, rfl, fun hx => hx, by simp⟩
  | cons r l ih =>
    obtain ⟨hm', hroom, hgrow, hself⟩ := hm.mark (hl r List.mem_cons_self)
    obtain ⟨hm'', hroom', hgrow', hall⟩ := ih hm' fun r' hr' => hl r' (List.mem_cons_of_mem _ hr')
    refine ⟨hm'', hroom'.trans hroom, fun hx => hgrow' (hgrow hx), fun r' hr' hlt => ?_⟩
    rcases List.mem_cons.1 hr' with rfl | hr'
    · exact hgrow' (hself hlt)
    · exact hall r' hr' hlt

theorem follow {heap : Heap} {gray : List Ref}
    (hm : Marks h roots (fun _ => False) ⟨heap, r :: gray⟩) :
    Marks h roots (fun _ => False)
    ((((heap.object? r).map Object.children).getD []).foldl Marking.mark ⟨heap, gray⟩) ∧
    ((((heap.object? r).map Object.children).getD []).foldl Marking.mark ⟨heap, gray⟩).room + 1 =
      Marking.room ⟨heap, r :: gray⟩ ∧
    ∀ {x}, heap.isMarked x = true →
      ((((heap.object? r).map Object.children).getD []).foldl Marking.mark
        ⟨heap, gray⟩).heap.isMarked x = true := by
  obtain ⟨hmarked, hnew⟩ := hm.gray List.mem_cons_self
  have hreach : h.Reach roots r := (hm.sound hmarked).resolve_left (by simp [hnew])
  have hpopped : Marks h roots (· = r) ⟨heap, gray⟩ := by
    refine ⟨hm.twin, hm.mono, hm.sound, fun hx => hm.gray (List.mem_cons_of_mem _ hx), ?_⟩
    intro x o hx hxnew hngray hne ho
    exact hm.done hx hxnew (by simp [hne, hngray]) id ho
  have hchildren : ∀ c ∈ ((heap.object? r).map Object.children).getD [], h.Reach roots c := by
    intro c hc
    rw [hm.twin.object_eq] at hc
    cases ho : h.object? r with
    | none => simp [ho] at hc
    | some o => exact .step hreach ho (by simpa [ho] using hc)
  obtain ⟨hm', hroom, hgrow, hall⟩ := hpopped.foldl_mark _ hchildren
  refine ⟨⟨hm'.twin, hm'.mono, hm'.sound, hm'.gray, ?_⟩, ?_, hgrow⟩
  · intro x o hx hxnew hngray _ ho c hc hclt
    by_cases heq : x = r
    · subst heq
      exact hall c (by simpa [hm.twin.object_eq, ho] using hc) hclt
    · exact hm'.done hx hxnew hngray heq ho c hc hclt
  · rw [hroom]
    simp [Marking.room, Nat.add_assoc]

theorem drain (fuel : Nat) (hm : Marks h roots (fun _ => False) m) (hroom : m.room ≤ fuel) :
    Marks h roots (fun _ => False) (m.drain fuel) ∧ (m.drain fuel).gray = [] ∧
      ∀ {x}, m.heap.isMarked x = true → (m.drain fuel).heap.isMarked x = true := by
  induction fuel generalizing m with
  | zero =>
    simp only [Marking.room] at hroom
    have hnil : m.gray = [] := List.length_eq_zero_iff.1 (by omega)
    exact ⟨hm, hnil, id⟩
  | succ fuel ih =>
    obtain ⟨heap, gray⟩ := m
    cases gray with
    | nil => exact ⟨hm, rfl, id⟩
    | cons r gray =>
      obtain ⟨hm', hroom', hgrow⟩ := hm.follow
      obtain ⟨hdone, hgray, hgrow'⟩ := ih hm' (by omega)
      exact ⟨hdone, hgray, fun hx => hgrow' (hgrow hx)⟩

end Marks

namespace Heap

variable {i : Nat}

/-- **Marking**: the objects that get a mark are reached from the roots; every root has a mark, and
so has every child of an object that got one. -/
theorem markFrom_spec (h : Heap) (roots : Roots) :
    Marks h roots.refs (fun _ => False) ⟨h.markFrom roots, []⟩ ∧
      ∀ r ∈ roots.refs, r.serial < h.cells.size → (h.markFrom roots).isMarked r = true := by
  have hstart : Marks h roots.refs (fun _ => False) ⟨h, []⟩ :=
    ⟨.refl h, id, Or.inl, by simp, fun hx hnew => by simp [hx] at hnew⟩
  obtain ⟨hm, hroom, -, hall⟩ := hstart.foldl_mark roots.refs fun r hr => .root hr
  have hle : (roots.refs.foldl Marking.mark ⟨h, []⟩).room ≤
      (roots.refs.foldl Marking.mark ⟨h, []⟩).heap.cells.size := by
    rw [hroom, hm.twin.size_eq]
    simpa [Marking.room] using Array.countP_le_size
  obtain ⟨hdone, hgray, hgrow⟩ := hm.drain _ hle
  generalize hM : (roots.refs.foldl Marking.mark ⟨h, []⟩).drain
    (roots.refs.foldl Marking.mark ⟨h, []⟩).heap.cells.size = M at hdone hgray hgrow
  obtain ⟨heap, gray⟩ := M
  obtain rfl : gray = [] := hgray
  have heq : h.markFrom roots = heap := congrArg Marking.heap hM
  rw [heq]
  exact ⟨hdone, fun r hr hlt => hgrow (hall r hr hlt)⟩

/-! ## Sweeping -/

/-- The heap `g` with its first `i` slots swept. -/
structure Swept (g : Heap) (i : Nat) (h : Heap) : Prop where
  slotted : h.Slotted
  size_eq : h.cells.size = g.cells.size
  settings_eq : h.settings = g.settings
  strings_eq : h.strings = g.strings
  slot_eq : ∀ r, h.slotOf? r = g.slotOf? r
  later : ∀ {j}, i ≤ j → h.slots[j]? = g.slots[j]?
  emptied : ∀ {j r}, j < i → h.slots[j]? = some (some r) → g.slots[j]? = some (some r) ∧
    g.isMarked r = true
  kept : ∀ {j r}, j < i → g.slots[j]? = some (some r) → g.isMarked r = true →
    h.slots[j]? = some (some r) ∧ h.object? r = g.object? r ∧ h.isMarked r = false
  untouched : ∀ {r}, (∀ j < i, g.slots[j]? ≠ some (some r)) →
    h.object? r = g.object? r ∧ h.isMarked r = g.isMarked r

section SweepSlot

variable {i : Nat} {cell : Cell}

theorem Slotted.ne_of_ne {j : Nat} {x : Ref} (hg : g.Slotted) (hij : j ≠ i)
    (hj : g.slots[j]? = some (some x)) (hi : g.slots[i]? = some (some r)) : r ≠ x := by
  rintro rfl
  exact hij (Option.some.inj ((hg.slot_eq hj).symm.trans (hg.slot_eq hi)))

end SweepSlot

theorem Swept.at {i : Nat} (hs : g.Swept i h) (hg : g.Slotted) (hi : h.slots[i]? = some (some r)) :
    g.slots[i]? = some (some r) ∧ h.object? r = g.object? r ∧ h.isMarked r = g.isMarked r := by
  have hgi : g.slots[i]? = some (some r) := (hs.later (Nat.le_refl i)).symm.trans hi
  have hne : ∀ j < i, g.slots[j]? ≠ some (some r) := by
    intro j hj hgj
    have := (hg.slot_eq hgj).symm.trans (hg.slot_eq hgi)
    simp only [Option.some.injEq] at this
    omega
  exact ⟨hgi, hs.untouched hne⟩

theorem Swept.succ_of_empty (hs : g.Swept i h) (hi : (h.slots[i]?).getD none = none) :
    g.Swept (i + 1) h := by
  have hnone : ∀ r, h.slots[i]? ≠ some (some r) := fun r hr => by simp [hr] at hi
  have hnone' : ∀ r, g.slots[i]? ≠ some (some r) :=
    fun r hr => hnone r ((hs.later (Nat.le_refl i)).trans hr)
  refine ⟨hs.slotted, hs.size_eq, hs.settings_eq, hs.strings_eq, hs.slot_eq, fun hj =>
    hs.later (by omega), ?_, ?_, ?_⟩
  · intro j r hj hr
    rcases Nat.lt_succ_iff_lt_or_eq.1 hj with hj | rfl
    · exact hs.emptied hj hr
    · exact (hnone r hr).elim
  · intro j r hj hr
    rcases Nat.lt_succ_iff_lt_or_eq.1 hj with hj | rfl
    · exact hs.kept hj hr
    · exact (hnone' r hr).elim
  · intro r hr
    exact hs.untouched fun j hj => hr j (by omega)

/-- The slot `i` is swept when its object loses the mark, or, if it had none, leaves the slot. -/
theorem Swept.next {i : Nat} {cell cell' : Cell} (hs : g.Swept i h) (hg : g.Slotted)
    (hi : h.slots[i]? = some (some r)) (hc : h.cells[r.serial]? = some cell)
    (hcells : h'.cells = h.cells.setIfInBounds r.serial cell') (hslot : cell'.slot = cell.slot)
    (hmarked : cell'.marked = false) (hobject : cell.marked = true → cell'.object = cell.object)
    (hsettings : h'.settings = h.settings) (hstrings : h'.strings = h.strings)
    (hslots : ∀ j : Nat, h'.slots[j]? = if i =
      j then some (if cell.marked then some r else none) else h.slots[j]?)
    (hfree : ∀ {j}, j ∈ h'.free ↔ h'.slots[j]? = some none) (hnodup : h'.free.Nodup)
    (hgen : h'.generations.size = h'.slots.size) : g.Swept (i + 1) h' := by
  obtain ⟨hgi, hobj, hmark⟩ := hs.at hg hi
  have hrm : g.isMarked r = cell.marked := by rw [← hmark]; simp [isMarked, hc]
  have hslotOf : ∀ x, h'.slotOf? x = h.slotOf? x := by
    intro x
    rw [slotOf?, hcells]
    exact view_set_of_eq hc hslot x
  have hother : ∀ {x}, r ≠ x → h'.object? x = h.object? x ∧ h'.isMarked x = h.isMarked x := by
    intro x hx
    rw [object?, isMarked, hcells, view_set _ hc, view_set _ hc, if_neg hx, if_neg hx]
    exact ⟨rfl, rfl⟩
  refine ⟨⟨?_, hfree, hnodup, hgen⟩, ?_, hsettings.trans hs.settings_eq, hstrings.trans hs.strings_eq,
    fun x => (hslotOf x).trans (hs.slot_eq x), ?_, ?_, ?_, ?_⟩
  · intro j x hx
    rw [hslots] at hx
    rw [hslotOf]
    split at hx
    · rename_i hij
      split at hx <;> cases hx
      exact hij ▸ hs.slotted.slot_eq hi
    · exact hs.slotted.slot_eq hx
  · simpa [hcells] using hs.size_eq
  · intro j hj
    rw [hslots, if_neg (by omega)]
    exact hs.later (by omega)
  · intro j x hj hx
    rw [hslots] at hx
    split at hx
    · rename_i hij
      split at hx <;> cases hx
      exact ⟨hij ▸ hgi, hrm.trans ‹_›⟩
    · exact hs.emptied (by omega) hx
  · intro j x hj hx hxm
    rw [hslots]
    rcases Nat.lt_succ_iff_lt_or_eq.1 hj with hj | rfl
    · obtain ⟨ho, hm⟩ := hother (hg.ne_of_ne (Nat.ne_of_lt hj) hx hgi)
      rw [if_neg (by omega), ho, hm]
      exact hs.kept hj hx hxm
    · rw [hgi] at hx
      cases hx
      rw [hrm] at hxm
      rw [if_pos rfl, if_pos hxm, ← hobj, object?, object?, isMarked, hcells, view_set _ hc,
        view_set _ hc, hc]
      simp [hobject hxm, hmarked]
  · intro x hx
    have hxne : r ≠ x := by
      rintro rfl
      exact hx i (by omega) hgi
    rw [(hother hxne).1, (hother hxne).2]
    exact hs.untouched fun j hj => hx j (by omega)

theorem Swept.unmark {cell : Cell} (hs : g.Swept i h) (hg : g.Slotted)
    (hi : h.slots[i]? = some (some r)) (hc : h.cells[r.serial]? = some cell)
    (hm : cell.marked = true) :
    g.Swept (i + 1)
    { h with cells := h.cells.setIfInBounds r.serial { cell with marked := false } } := by
  refine hs.next hg hi hc rfl rfl rfl (fun _ => rfl) rfl rfl (fun j => ?_) hs.slotted.free_iff
    hs.slotted.free_nodup hs.slotted.generations_size
  rw [hm]
  split
  · rename_i hij
    exact hij ▸ hi
  · rfl

theorem release_slots (cell : Cell) (hi : h.slots[i]? = some (some r)) (j : Nat) :
    (h.release i r cell).slots[j]? = if i = j then some none else h.slots[j]? := by
  simp [Heap.release, Array.getElem?_setIfInBounds, (Array.getElem?_eq_some_iff.1 hi).1]

theorem Swept.release {cell : Cell} (hs : g.Swept i h) (hg : g.Slotted)
    (hi : h.slots[i]? = some (some r)) (hc : h.cells[r.serial]? = some cell)
    (hm : cell.marked = false) : g.Swept (i + 1) (h.release i r cell) := by
  refine hs.next hg hi hc rfl rfl hm (by simp [hm]) rfl rfl (by simpa [hm] using release_slots cell hi)
    (fun {j} => ?_) (List.nodup_cons.2 ⟨?_, hs.slotted.free_nodup⟩) ?_
  · rw [release_slots cell hi]
    split
    · rename_i heq
      simp [Heap.release, heq]
    · rename_i hj
      rw [← hs.slotted.free_iff]
      simp [Heap.release, Ne.symm hj]
  · rw [hs.slotted.free_iff, hi]
    simp
  · simpa [Heap.release] using hs.slotted.generations_size

/-- A slot that is swept is empty, or its object loses the mark, or the object leaves it. -/
theorem Slotted.sweepSlot_cases {motive : Heap → Prop} (hs : h.Slotted) (i : Nat)
    (empty : (h.slots[i]?).getD none = none → motive h)
    (unmark : ∀ {r cell}, h.slots[i]? = some (some r) → h.cells[r.serial]? = some cell →
      cell.marked = true →
      motive { h with cells := h.cells.setIfInBounds r.serial { cell with marked := false } })
    (release : ∀ {r cell}, h.slots[i]? = some (some r) → h.cells[r.serial]? = some cell →
      cell.marked = false → motive (h.release i r cell)) :
    motive (h.sweepSlot i).2 := by
  unfold sweepSlot
  cases hi : (h.slots[i]?).getD none with
  | none => exact empty hi
  | some r =>
    have hi' : h.slots[i]? = some (some r) := by
      cases hsi : h.slots[i]? with
      | none => simp [hsi] at hi
      | some s => simpa [hsi] using hi
    obtain ⟨cell, hc, -⟩ := Option.map_eq_some_iff.1 (hs.slot_eq hi')
    simp only [hc]
    cases hm : cell.marked with
    | true => exact unmark hi' hc hm
    | false => exact release hi' hc hm

theorem sweepFrom_induct {P : Nat → Heap → Prop}
    (hstep : ∀ {i h}, P i h → P (i + 1) (Heap.sweepSlot h i).2)
    (count : Nat) (freed : Nat) (hi : P i h) : P (i + count) (h.sweepFrom count i freed).2 := by
  induction count generalizing h i freed with
  | zero => exact hi
  | succ count ih =>
    have hnext := hstep hi
    rw [Heap.sweepFrom, show i + (count + 1) = i + 1 + count by omega]
    generalize h.sweepSlot i = swept at hnext
    obtain ⟨gone, h1⟩ := swept
    cases gone <;> exact ih _ hnext

theorem Swept.sweepSlot (hs : g.Swept i h) (hg : g.Slotted) : g.Swept (i + 1) (h.sweepSlot i).2 :=
  hs.slotted.sweepSlot_cases i hs.succ_of_empty (hs.unmark hg) (hs.release hg)

theorem Swept.sweepFrom (hg : g.Slotted) (count : Nat) (freed : Nat) (hs : g.Swept i h) :
    g.Swept (i + count) (h.sweepFrom count i freed).2 :=
  sweepFrom_induct (fun hs => hs.sweepSlot hg) count freed hs

theorem swept_start (hg : g.Slotted) : g.Swept 0 g :=
  ⟨hg, rfl, rfl, rfl, fun _ => rfl, fun _ => rfl, fun hj => absurd hj (Nat.not_lt_zero _),
    fun hj => absurd hj (Nat.not_lt_zero _), fun _ => ⟨rfl, rfl⟩⟩

/-- **Sweeping**: the objects that bear a mark stay, without it. -/
theorem sweep_spec (hg : g.Slotted) :
    let h := (g.sweepFrom g.slots.size 0 0).2
    h.Registered ∧ (∀ r, h.Live r ↔ g.Live r ∧ g.isMarked r = true) ∧
      (∀ r, h.Live r → h.object? r = g.object? r) ∧ h.strings = g.strings ∧
      h.cells.size = g.cells.size ∧ h.settings = g.settings := by
  intro h
  have hs : g.Swept (0 + g.slots.size) h := (swept_start hg).sweepFrom hg g.slots.size 0
  rw [Nat.zero_add] at hs
  have hin : ∀ {i r}, h.slots[i]? = some (some r) → i < g.slots.size := by
    intro i r hi
    refine Nat.lt_of_not_le fun hle => ?_
    rw [hs.later hle, Array.getElem?_eq_none hle] at hi
    cases hi
  have hlive : ∀ r, h.Live r ↔ g.Live r ∧ g.isMarked r = true := by
    intro r
    constructor
    · rintro ⟨i, hi, hsi⟩
      obtain ⟨hgi, hm⟩ := hs.emptied (hin hsi) hsi
      exact ⟨⟨i, (hs.slot_eq r).symm.trans hi, hgi⟩, hm⟩
    · rintro ⟨⟨i, hi, hgi⟩, hm⟩
      have hlt := (Array.getElem?_eq_some_iff.1 hgi).1
      exact ⟨i, (hs.slot_eq r).trans hi, (hs.kept hlt hgi hm).1⟩
  have hkept : ∀ {r}, h.Live r → h.object? r = g.object? r ∧ h.isMarked r = false := by
    intro r hr
    obtain ⟨⟨i, -, hgi⟩, hm⟩ := (hlive r).1 hr
    have hlt := (Array.getElem?_eq_some_iff.1 hgi).1
    exact (hs.kept hlt hgi hm).2
  exact ⟨⟨hs.slotted, fun hr => (hkept hr).2⟩, hlive, fun r hr => (hkept hr).1, hs.strings_eq,
    hs.size_eq, hs.settings_eq⟩

/-! ## Collections -/

/-- What a collection leaves of a heap. -/
structure Collected (h : Heap) (roots : List Ref) (h' : Heap) : Prop where
  sound : h'.Sound
  live_iff : ∀ r, h'.Live r ↔ h.Reach roots r
  object_eq : ∀ r, h'.Live r → h'.object? r = h.object? r
  size_eq : h'.cells.size = h.cells.size
  settings_eq : h'.settings = h.settings

theorem Sound.isMarked_markFrom (hs : h.Sound) {roots : Roots} (hroots : ∀ r ∈ roots.refs, h.Live r)
    (hl : h.Live r) : (h.markFrom roots).isMarked r = true ↔ h.Reach roots.refs r := by
  obtain ⟨hm, hall⟩ := h.markFrom_spec roots
  constructor
  · intro hr
    rcases hm.sound hr with hbefore | hreach
    · rw [hs.unmarked hl] at hbefore
      cases hbefore
    · exact hreach
  · intro hr
    clear hl
    induction hr with
    | root hr => exact hall _ hr (hroots _ hr).lt
    | step hr ho hc ih =>
      have hlr := hs.live_of_reach hroots hr
      exact hm.done ih (hs.unmarked hlr) (by simp) id ho _ hc (hs.closed hlr ho _ hc).lt

/-- The heap after marking, with the strings that were marked. -/
def weeded (g : Heap) : Heap :=
  { g with strings := (g.strings.removeUnless fun key => g.isMarked key.ref).2 }

theorem Slotted.weeded (hs : h.Slotted) : h.weeded.Slotted :=
  ⟨hs.slot_eq, hs.free_iff, hs.free_nodup, hs.generations_size⟩

theorem agrees_ended (h : Heap) (next : Int) (collections : Nat) (message : Unit → String) :
    h.Agrees (Heap.trace { h with nextCollection := next, collections } message) := by
  have ha := Heap.agrees_trace { h with nextCollection := next, collections } message
  exact ⟨⟨ha.size_eq, ha.object_eq, ha.slot_eq, ha.slots_eq, ha.free_eq, ha.generations_eq,
    ha.strings_eq, ha.settings_eq⟩, ha.marked_eq⟩

theorem agrees_collect (h : Heap) (roots : Roots) : ∃ begun,
    Agrees (((h.trace begun).markFrom roots).weeded.sweepFrom
      ((h.trace begun).markFrom roots).weeded.slots.size 0 0).2 (h.collect roots) := by
  refine ⟨fun _ => "-- gc begin", ?_⟩
  unfold collect weeded
  dsimp only
  generalize (h.trace fun _ => "-- gc begin").markFrom roots = g
  generalize (Heap.sweepFrom g.slots.size 0 0 _) = swept
  exact agrees_ended swept.2 _ _ _

/-- Of the registered objects those for which `M` holds are left, as they were. -/
structure Culled (h : Heap) (M : Ref → Prop) (h' : Heap) : Prop where
  registered : h'.Registered
  live_iff : ∀ r, h'.Live r ↔ h.Live r ∧ M r
  object_eq : ∀ r, h'.Live r → h'.object? r = h.object? r
  interned : h.Interned → h'.Interned
  size_eq : h'.cells.size = h.cells.size
  settings_eq : h'.settings = h.settings

theorem Slotted.culled_sweep (hs : h.Slotted) (ht : h.Twin g) :
    h.Culled (g.isMarked · = true) (g.weeded.sweepFrom g.weeded.slots.size 0 0).2 := by
  obtain ⟨hreg, hlive', hobject', hstrings, hsize, hsettings⟩ := sweep_spec (ht.slotted hs).weeded
  generalize (g.weeded.sweepFrom g.weeded.slots.size 0 0).2 = g' at *
  have hlive : ∀ r, g'.Live r ↔ h.Live r ∧ g.isMarked r = true := by
    intro r
    rw [hlive']
    exact and_congr_left' ht.live_iff
  have hkept : ∀ {r}, g'.Live r → g'.object? r = h.object? r := fun hr =>
    (hobject' _ hr).trans (ht.object_eq _)
  have hlive_of : ∀ {r}, g'.Live r → h.Live r := fun hr => ((hlive _).1 hr).1
  have htable : g'.strings = (h.strings.removeUnless fun key => g.isMarked key.ref).2 := by
    rw [hstrings, Heap.weeded, ht.strings_eq]
  refine ⟨hreg, hlive, fun r hr => hkept hr, fun hi => ?_, hsize.trans ht.size_eq,
    hsettings.trans ht.settings_eq⟩
  obtain ⟨hvalid, hholds⟩ := hi.valid.removeUnless_spec fun key => g.isMarked key.ref
  refine ⟨htable ▸ hvalid, ?_, ?_, ?_⟩
  · intro k u
    rw [htable, hholds, hi.holds_iff, hlive]
    constructor
    · rintro ⟨hm, hl, ho⟩
      exact ⟨⟨hl, hm⟩, (hkept ((hlive _).2 ⟨hl, hm⟩)).trans ho⟩
    · rintro ⟨⟨hl, hm⟩, ho⟩
      exact ⟨hm, hl, (hkept ((hlive _).2 ⟨hl, hm⟩)).symm.trans ho⟩
  · exact fun hl ho => hi.hash_eq (hlive_of hl) ((hkept hl).symm.trans ho)
  · exact fun hl hl' ho ho' =>
      hi.unique (hlive_of hl) (hlive_of hl') ((hkept hl).symm.trans ho) ((hkept hl').symm.trans ho')

theorem Sound.sweep (hs : h.Sound) (ht : h.Twin g) (hroots : ∀ r ∈ roots, h.Live r)
    (hiff : ∀ {r}, h.Live r → (g.isMarked r = true ↔ h.Reach roots r)) :
    h.Collected roots (g.weeded.sweepFrom g.weeded.slots.size 0 0).2 := by
  have hc := hs.toSlotted.culled_sweep ht
  generalize (g.weeded.sweepFrom g.weeded.slots.size 0 0).2 = g' at *
  have hreach : ∀ r, g'.Live r ↔ h.Reach roots r := by
    intro r
    rw [hc.live_iff]
    constructor
    · rintro ⟨hl, hr⟩
      exact (hiff hl).1 hr
    · intro hr
      have hl := hs.live_of_reach hroots hr
      exact ⟨hl, (hiff hl).2 hr⟩
  refine ⟨⟨hc.registered, hc.interned hs.toInterned, ?_⟩, hreach, hc.object_eq, hc.size_eq,
    hc.settings_eq⟩
  intro r o hl ho c hmem
  exact (hreach c).2 (.step ((hreach r).1 hl) ((hc.object_eq r hl).symm.trans ho) hmem)

/-- Only what was noted, or what is not looked at between collections, differs. -/
theorem Collected.agrees {g g' : Heap} (hc : h.Collected roots g) (ha : g.Agrees g') :
    h.Collected roots g' where
  sound := ha.sound hc.sound
  live_iff r := ha.live_iff.trans (hc.live_iff r)
  object_eq r hr := (ha.object_eq r).trans (hc.object_eq r (ha.live_iff.1 hr))
  size_eq := ha.size_eq.trans hc.size_eq
  settings_eq := ha.settings_eq.trans hc.settings_eq

theorem Culled.agrees {M : Ref → Prop} {g g' : Heap} (hc : h.Culled M g) (ha : g.Agrees g') :
    h.Culled M g' where
  registered := ha.registered hc.registered
  live_iff r := ha.live_iff.trans (hc.live_iff r)
  object_eq r hr := (ha.object_eq r).trans (hc.object_eq r (ha.live_iff.1 hr))
  interned hi := ha.interned (hc.interned hi)
  size_eq := ha.size_eq.trans hc.size_eq
  settings_eq := ha.settings_eq.trans hc.settings_eq

/-- **A collection with any roots** takes objects out of the registry, none of the roots among them,
and leaves the others as they are. -/
theorem Registered.culled_collect (hr : h.Registered) (roots : Roots) :
    ∃ M : Ref → Prop, h.Culled M (h.collect roots) ∧ ∀ r ∈ roots.refs, h.Live r → M r := by
  obtain ⟨begun, hended⟩ := h.agrees_collect roots
  have hbegun := h.agrees_trace begun
  obtain ⟨hm, hall⟩ := (h.trace begun).markFrom_spec roots
  exact ⟨_, (hr.toSlotted.culled_sweep (hbegun.toTwin.trans hm.twin)).agrees hended, fun r hmem hl =>
    hall r hmem (hbegun.live_iff.2 hl).lt⟩

theorem Sound.marks_collect (hs : h.Sound) {roots : Roots} (hroots : ∀ r ∈ roots.refs, h.Live r) :
    ∃ g, h.Twin g ∧ (∀ {r}, h.Live r → (g.isMarked r = true ↔ h.Reach roots.refs r)) ∧
    Agrees (g.weeded.sweepFrom g.weeded.slots.size 0 0).2 (h.collect roots) := by
  obtain ⟨begun, hended⟩ := h.agrees_collect roots
  have hbegun := h.agrees_trace begun
  have hroots' : ∀ r ∈ roots.refs, (h.trace begun).Live r :=
    fun r hr => hbegun.live_iff.2 (hroots r hr)
  obtain ⟨hm, -⟩ := (h.trace begun).markFrom_spec roots
  refine ⟨_, hbegun.toTwin.trans hm.twin, fun hl => ?_, hended⟩
  refine ((hbegun.sound hs).isMarked_markFrom hroots' (hbegun.live_iff.2 hl)).trans
    ⟨fun hr => ?_, fun hr => ?_⟩
  · exact hr.congr fun x => (hbegun.object_eq x).symm
  · exact hr.congr hbegun.object_eq

/-- **A collection** leaves the objects in use as they are, and no others in the registry. -/
theorem Sound.collect (hs : h.Sound) {roots : Roots} (hroots : ∀ r ∈ roots.refs, h.Live r) :
    h.Collected roots.refs (h.collect roots) := by
  obtain ⟨g, ht, hiff, hended⟩ := hs.marks_collect hroots
  exact (hs.sweep ht hroots hiff).agrees hended

end Heap

end Parlance
