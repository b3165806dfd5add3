/-
  Collections slot by slot.
-/
import Parlance.Proofs.Heap.Collection

namespace Parlance.Heap

variable {g h h' : Heap} {r x : Ref} {roots : List Ref} {i j : Nat} {cell : Cell}

/-! ## Slots of unmarked objects -/

/-- The unmarked objects in the first `i` slots of `g` are released in `h`. -/
structure Emptied (g : Heap) (i : Nat) (h : Heap) : Prop where
  slots_size : h.slots.size = g.slots.size
  generation : ∀ {j}, i ≤ j → h.generations[j]? = g.generations[j]?
  released : ∀ {j r}, j < i → g.slots[j]? = some (some r) → g.isMarked r = false →
    h.generations[j]? = (g.generations[j]?).map (· + 1) ∧
    h.object? r = (g.object? r).map Object.released ∧
      h.isMarked r = false

theorem Emptied.succ_of_empty (he : g.Emptied i h) (hi : ∀ r, g.slots[i]? ≠ some (some r)) :
    g.Emptied (i + 1) h where
  slots_size := he.slots_size
  generation hj := he.generation (by omega)
  released {j r} hj hr := by
    rcases Nat.lt_succ_iff_lt_or_eq.1 hj with hj | rfl
    · exact he.released hj hr
    · exact (hi r hr).elim

theorem Emptied.unmark (he : g.Emptied i h) (hg : g.Slotted) (hi : g.slots[i]? = some (some r))
    (hc : h.cells[r.serial]? = some cell) (hm : g.isMarked r = true) :
    g.Emptied (i + 1)
    { h with cells := h.cells.setIfInBounds r.serial { cell with marked := false } } where
  slots_size := he.slots_size
  generation hj := he.generation (by omega)
  released {j x} hj hx hxm := by
    rcases Nat.lt_succ_iff_lt_or_eq.1 hj with hj | rfl
    · have hne : r ≠ x := hg.ne_of_ne (Nat.ne_of_lt hj) hx hi
      obtain ⟨hgen, hobj, hmark⟩ := he.released hj hx hxm
      exact ⟨hgen, ((view_set Cell.object hc _ x).trans (if_neg hne)).trans hobj,
        (congrArg (·.getD false) ((view_set Cell.marked hc _ x).trans (if_neg hne))).trans hmark⟩
    · rw [hi] at hx
      cases hx
      rw [hm] at hxm
      cases hxm

theorem Emptied.release (he : g.Emptied i h) (hs : g.Swept i h) (hg : g.Slotted)
    (hi : h.slots[i]? = some (some r))
    (hc : h.cells[r.serial]? = some cell) (hm : cell.marked = false) :
    g.Emptied (i + 1) (h.release i r cell) where
  slots_size := by simpa [Heap.release] using he.slots_size
  generation {j} hj := by
    have hne : i ≠ j := by omega
    simpa [Heap.release, Array.getElem?_modify, hne] using he.generation (j := j) (by omega)
  released {j x} hj hx hxm := by
    obtain ⟨hgi, hobj, -⟩ := hs.at hg hi
    rcases Nat.lt_succ_iff_lt_or_eq.1 hj with hj | rfl
    · have hne : r ≠ x := hg.ne_of_ne (Nat.ne_of_lt hj) hx hgi
      obtain ⟨hgen, hobj, hmark⟩ := he.released hj hx hxm
      refine ⟨?_, ((view_set Cell.object hc _ x).trans (if_neg hne)).trans hobj,
        (congrArg (·.getD false) ((view_set Cell.marked hc _ x).trans (if_neg hne))).trans hmark⟩
      have hij : i ≠ j := by omega
      simpa [Heap.release, Array.getElem?_modify, hij] using hgen
    · rw [hgi] at hx
      cases hx
      refine ⟨?_, (view_set Cell.object hc _ r).trans ?_,
        (congrArg (·.getD false) (view_set Cell.marked hc _ r)).trans ?_⟩
      · simp [Heap.release, Array.getElem?_modify, he.generation (Nat.le_refl j)]
      · rw [if_pos rfl, ← hobj]
        simp [object?, hc]
      · simpa using hm

theorem Emptied.sweepSlot (he : g.Emptied i h) (hs : g.Swept i h) (hg : g.Slotted) :
    g.Emptied (i + 1) (h.sweepSlot i).2 := by
  refine hs.slotted.sweepSlot_cases i (fun hi => ?_) (fun hi hc hm => ?_) (he.release hs hg)
  · refine he.succ_of_empty fun r hr => ?_
    rw [hs.later (Nat.le_refl i), hr] at hi
    cases hi
  · obtain ⟨hgi, -, hmark⟩ := hs.at hg hi
    exact he.unmark hg hgi hc (by rw [← hmark]; simp [isMarked, hc, hm])

theorem Emptied.sweepFrom (hg : g.Slotted) (count : Nat) (freed : Nat) (he : g.Emptied i h)
    (hs : g.Swept i h) : g.Emptied (i + count) (h.sweepFrom count i freed).2 :=
  (sweepFrom_induct (P := fun i h => g.Emptied i h ∧ g.Swept i h)
    (fun ⟨he, hs⟩ => ⟨he.sweepSlot hs hg, hs.sweepSlot hg⟩) count freed ⟨he, hs⟩).1

/-! ## Collections -/

/-- What a collection with the given roots does: an object that they reach stays in its slot as it
is, any other leaves an empty slot behind, and the strings among those leave the table. -/
structure Spares (h : Heap) (roots : List Ref) (h' : Heap) : Prop where
  registered : ∀ {r}, h.Reach roots r → h.Live r
  kept : ∀ {i : Nat} {r}, h.slots[i]? = some (some r) → h.Reach roots r →
    h'.slots[i]? = some (some r) ∧ h'.object? r = h.object? r
  released : ∀ {i : Nat} {r}, h.slots[i]? = some (some r) → ¬ h.Reach roots r →
    h'.slots[i]? = some none ∧ i ∈ h'.free ∧ h'.generations[i]? = (h.generations[i]?).map (· + 1) ∧
      h'.object? r = (h.object? r).map Object.released
  vacant : ∀ {i : Nat}, h.slots[i]? = some none → h'.slots[i]? = some none
  slots_size : h'.slots.size = h.slots.size
  strings_iff : ∀ {k u}, h'.strings.Holds k u ↔ h.strings.Holds k u ∧ h.Reach roots k.ref
  unmarked : ∀ {r}, h.Live r → h'.isMarked r = false

theorem emptied_start (g : Heap) : g.Emptied 0 g :=
  ⟨rfl, fun _ => rfl, fun hj => absurd hj (Nat.not_lt_zero _)⟩

theorem Sound.spares_sweep (hs : h.Sound) (ht : h.Twin g) (hroots : ∀ r ∈ roots, h.Live r)
    (hiff : ∀ {r}, h.Live r → (g.isMarked r = true ↔ h.Reach roots r)) :
    h.Spares roots (g.weeded.sweepFrom g.weeded.slots.size 0 0).2 := by
  have hslotted := (ht.slotted hs.toSlotted).weeded
  have hswept := (swept_start hslotted).sweepFrom hslotted g.weeded.slots.size 0
  have hemptied :=
    (emptied_start g.weeded).sweepFrom hslotted g.weeded.slots.size 0 (swept_start hslotted)
  have hsound := hs.sweep ht hroots hiff
  have hslots : g.weeded.slots = h.slots := ht.slots_eq
  have hobjects : ∀ x, g.weeded.object? x = h.object? x := ht.object_eq
  have hgenerations : g.weeded.generations = h.generations := ht.generations_eq
  rw [Nat.zero_add] at hswept hemptied
  generalize (g.weeded.sweepFrom g.weeded.slots.size 0 0).2 = g' at *
  have hlive : ∀ {i : Nat} {r}, h.slots[i]? = some (some r) → h.Live r :=
    fun hi => ⟨_, hs.slot_eq hi, hi⟩
  have hlt : ∀ {i : Nat} {s}, h.slots[i]? = some s → i < g.weeded.slots.size := fun hi => by
    rw [hslots]
    exact (Array.getElem?_eq_some_iff.1 hi).1
  have hunmarked : ∀ {r}, ¬ h.Reach roots r → h.Live r → g.isMarked r = false := fun hr hl =>
    Bool.eq_false_iff.2 fun hm => hr ((hiff hl).1 hm)
  -- a slot that is in range and holds no object is empty
  have hnone : ∀ {i : Nat} {s}, h.slots[i]? = some s → (∀ r, g'.slots[i]? ≠ some (some r)) →
      g'.slots[i]? = some none := by
    intro i s hi hne
    have hi' : i < g'.slots.size := by rw [hemptied.slots_size]; exact hlt hi
    cases hslot : g'.slots[i] with
    | none => rw [Array.getElem?_eq_getElem hi', hslot]
    | some r => exact (hne r (by rw [Array.getElem?_eq_getElem hi', hslot])).elim
  refine ⟨hs.live_of_reach hroots, ?_, ?_, ?_,
    hemptied.slots_size.trans (congrArg Array.size hslots), ?_, ?_⟩
  · intro i r hi hr
    have hk := hswept.kept (hlt hi) (hslots ▸ hi) ((hiff (hlive hi)).2 hr)
    exact ⟨hk.1, hk.2.1.trans (hobjects r)⟩
  · intro i r hi hr
    obtain ⟨hgen, hobj, -⟩ := hemptied.released (hlt hi) (hslots ▸ hi) (hunmarked hr (hlive hi))
    have hempty : g'.slots[i]? = some none := by
      refine hnone hi fun x hx => ?_
      obtain ⟨hgx, hm⟩ := hswept.emptied (hlt hi) hx
      rw [hslots, hi] at hgx
      cases hgx
      exact hr ((hiff (hlive hi)).1 hm)
    exact ⟨hempty, hsound.sound.free_iff.2 hempty, hgenerations ▸ hgen, hobj.trans (by rw [hobjects])⟩
  · intro i hi
    refine hnone hi fun x hx => ?_
    have := (hswept.emptied (hlt hi) hx).1
    rw [hslots, hi] at this
    cases this
  · intro k u
    rw [hsound.sound.holds_iff, hs.holds_iff, hsound.live_iff]
    constructor
    · rintro ⟨hr, ho⟩
      exact ⟨⟨hs.live_of_reach hroots hr,
        (hsound.object_eq _ ((hsound.live_iff _).2 hr)).symm.trans ho⟩, hr⟩
    · rintro ⟨⟨-, ho⟩, hr⟩
      exact ⟨hr, (hsound.object_eq _ ((hsound.live_iff _).2 hr)).trans ho⟩
  · rintro r ⟨i, -, hi⟩
    by_cases hr : h.Reach roots r
    · exact (hswept.kept (hlt hi) (hslots ▸ hi) ((hiff (hlive hi)).2 hr)).2.2
    · exact (hemptied.released (hlt hi) (hslots ▸ hi) (hunmarked hr (hlive hi))).2.2

theorem Spares.agrees (hsp : h.Spares roots g) (ha : g.Agrees h') : h.Spares roots h' where
  registered := hsp.registered
  kept hi hr := by
    rw [ha.slots_eq, ha.object_eq]
    exact hsp.kept hi hr
  released hi hr := by
    rw [ha.slots_eq, ha.object_eq, ha.free_eq, ha.generations_eq]
    exact hsp.released hi hr
  vacant hi := by
    rw [ha.slots_eq]
    exact hsp.vacant hi
  slots_size := by rw [ha.slots_eq, hsp.slots_size]
  strings_iff := by
    rw [ha.strings_eq]
    exact hsp.strings_iff
  unmarked hl := (ha.marked_eq _).trans (hsp.unmarked hl)

/-- **A collection is exact**: the objects that the roots reach stay, and all others go. -/
theorem Sound.spares_collect (hs : h.Sound) {roots : Roots} (hroots : ∀ r ∈ roots.refs, h.Live r) :
    h.Spares roots.refs (h.collect roots) := by
  obtain ⟨g, ht, hiff, hended⟩ := hs.marks_collect hroots
  exact (hs.spares_sweep ht hroots hiff).agrees hended

/-! ## Collections with nothing to release -/

theorem Sound.unmarked_collect (hs : h.Sound) {roots : Roots} (hroots : ∀ r ∈ roots.refs, h.Live r)
    (hclear : ∀ r, h.isMarked r = false) (r : Ref) : (h.collect roots).isMarked r = false := by
  by_cases hl : h.Live r
  · exact (hs.spares_collect hroots).unmarked hl
  · obtain ⟨begun, hended⟩ := h.agrees_collect roots
    have hbegun := h.agrees_trace begun
    obtain ⟨hm, -⟩ := (h.trace begun).markFrom_spec roots
    generalize (h.trace begun).markFrom roots = g at hended hm
    have ht : h.Twin g := hbegun.toTwin.trans hm.twin
    have hslotted := (ht.slotted hs.toSlotted).weeded
    have hswept := (swept_start hslotted).sweepFrom hslotted g.weeded.slots.size 0
    -- an object outside the registry is not reached, and sweeping does not come to it
    have hout : ∀ j < 0 + g.weeded.slots.size, g.weeded.slots[j]? ≠ some (some r) := fun j _ hj =>
      hl ⟨j, hs.slot_eq (ht.slots_eq ▸ hj), ht.slots_eq ▸ hj⟩
    rw [hended.marked_eq, (hswept.untouched hout).2]
    refine Bool.eq_false_iff.2 fun hmarked => ?_
    rcases hm.sound hmarked with hbefore | hreach
    · rw [hbegun.marked_eq, hclear r] at hbefore
      cases hbefore
    · exact hl (hs.live_of_reach hroots (hreach.congr fun x => (hbegun.object_eq x).symm))

theorem twin_sweepFrom (hg : g.Slotted) (count : Nat) (freed : Nat) (ht : g.Twin h)
    (hall : ∀ {j r}, i ≤ j → g.slots[j]? = some (some r) → h.isMarked r = true) :
    (h.sweepFrom count i freed).1 = freed ∧ g.Twin (h.sweepFrom count i freed).2 := by
  induction count generalizing h i freed with
  | zero => exact ⟨rfl, ht⟩
  | succ count ih =>
    have hstep : (h.sweepSlot i).1 = false ∧ g.Twin (h.sweepSlot i).2 ∧
        ∀ {j r}, i + 1 ≤ j → g.slots[j]? = some (some r) → (h.sweepSlot i).2.isMarked r = true := by
      unfold Heap.sweepSlot
      cases hi : (h.slots[i]?).getD none with
      | none => exact ⟨rfl, ht, fun hj hr => hall (by omega) hr⟩
      | some r =>
        have hi' : g.slots[i]? = some (some r) := by
          rw [ht.slots_eq] at hi
          cases hsi : g.slots[i]? with
          | none => simp [hsi] at hi
          | some s => simpa [hsi] using hi
        obtain ⟨cell, hc, -⟩ := Option.map_eq_some_iff.1 ((ht.slot_eq r).trans (hg.slot_eq hi'))
        have hm : cell.marked = true := by simpa [isMarked, hc] using hall (Nat.le_refl i) hi'
        simp only [hc, hm, if_true]
        refine ⟨trivial,
          ht.trans ⟨by simp, view_set_of_eq hc rfl, view_set_of_eq hc rfl, rfl, rfl, rfl, rfl, rfl⟩,
          fun {j x} hj hx => ?_⟩
        have hne : r ≠ x := hg.ne_of_ne (by omega) hx hi'
        exact (congrArg (·.getD false) ((view_set Cell.marked hc _ x).trans (if_neg hne))).trans
          (hall (by omega) hx)
    obtain ⟨hgone, ht', hall'⟩ := hstep
    rw [Heap.sweepFrom]
    generalize h.sweepSlot i = swept at hgone ht' hall'
    obtain ⟨gone, h1⟩ := swept
    cases hgone
    exact ih _ ht' hall'

theorem removeUnless_of_keep {t : Table Unit} {keep : Symbol → Bool}
    (hkeep : ∀ {k u}, t.Holds k u → keep k = true) : (t.removeUnless keep).2 = t := by
  have hnone : t.entriesList.countP (fun e => !keep e.1) = 0 := List.countP_eq_zero.2 fun e he => by
    simp [hkeep (Table.mem_entriesList.1 he)]
  rw [Table.removeUnless_eq, hnone]
  rfl

/-- **A collection where everything is in use** leaves slots, objects and strings alone. -/
theorem Sound.twin_collect (hs : h.Sound) {roots : Roots} (hroots : ∀ r ∈ roots.refs, h.Live r)
    (hall : ∀ r, h.Live r → h.Reach roots.refs r) : h.Twin (h.collect roots) := by
  obtain ⟨g, ht, hiff, hended⟩ := hs.marks_collect hroots
  have hmarked : ∀ {r}, h.Live r → g.isMarked r = true := fun hl => (hiff hl).2 (hall _ hl)
  have hweeded : g.weeded = g := by
    have hstrings : (g.strings.removeUnless fun key => g.isMarked key.ref).2 = g.strings := by
      refine removeUnless_of_keep fun hk => hmarked ?_
      rw [ht.strings_eq] at hk
      exact (hs.holds_iff.1 hk).1
    rw [weeded, hstrings]
  rw [hweeded] at hended
  have hslotted := ht.slotted hs.toSlotted
  have hall' : ∀ {j r}, 0 ≤ j → g.slots[j]? = some (some r) → g.isMarked r = true := fun _ hr => by
    rw [ht.slots_eq] at hr
    exact hmarked ⟨_, hs.slot_eq hr, hr⟩
  obtain ⟨-, hswept⟩ := twin_sweepFrom hslotted g.slots.size 0 (.refl g) hall'
  exact ht.trans (hswept.trans hended.toTwin)

end Parlance.Heap
