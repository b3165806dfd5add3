/-
  What the heap keeps account of.
-/
import Mathlib
import Parlance.Proofs.Heap.Allocation

namespace Parlance.Heap

variable {g h h' : Heap} {r x : Ref} {i j : Nat} {cell : Cell}

/-! ## Charges -/

/-- The bytes charged for an object. -/
def charge (h : Heap) (r : Ref) : Int := ((h.cells[r.serial]?).map (·.charged)).getD 0

/-- The bytes charged for what a slot holds. -/
def chargeIn (h : Heap) : Option Ref → Int
  | some r => h.charge r
  | none => 0

/-- The bytes charged for the registered objects. -/
def charges (h : Heap) : Int := (h.slots.toList.map h.chargeIn).sum

theorem charges_congr (hslots : h'.slots = h.slots)
    (heq : ∀ {i : Nat} {r}, h.slots[i]? = some (some r) → h'.charge r = h.charge r) :
    h'.charges = h.charges := by
  unfold charges
  rw [hslots]
  refine congrArg List.sum (List.map_congr_left fun s hs => ?_)
  cases s with
  | none => rfl
  | some r =>
    obtain ⟨i, hi⟩ := List.mem_iff_getElem?.1 hs
    exact heq (by simpa using hi)

theorem charges_set {s : Option Ref} (hslots : h'.slots = h.slots.setIfInBounds i s)
    (hi : i < h.slots.size) (heq : ∀ x, h'.charge x = h.charge x) :
    h'.charges = h.charges - h.chargeIn h.slots[i] + h.chargeIn s := by
  have hin : h'.chargeIn = h.chargeIn := by
    funext s
    cases s with
    | none => rfl
    | some r => exact heq r
  unfold charges
  rw [hslots, hin, Array.toList_setIfInBounds, List.map_set, List.sum_set']
  simp [hi]
  omega

/-- The accounts of two heaps are the same. -/
structure Ledger (h h' : Heap) : Prop where
  charge_eq : ∀ r, h'.charge r = h.charge r
  bytes_eq : h'.bytes = h.bytes
  next_eq : h'.nextCollection = h.nextCollection

theorem Ledger.refl (h : Heap) : h.Ledger h := ⟨fun _ => rfl, rfl, rfl⟩

theorem Ledger.trans {h1 h2 h3 : Heap} (h12 : h1.Ledger h2) (h23 : h2.Ledger h3) : h1.Ledger h3 where
  charge_eq r := (h23.charge_eq r).trans (h12.charge_eq r)
  bytes_eq := h23.bytes_eq.trans h12.bytes_eq
  next_eq := h23.next_eq.trans h12.next_eq

theorem ledger_trace (h : Heap) (message : Unit → String) : h.Ledger (h.trace message) := by
  unfold trace
  split
  · exact ⟨fun _ => rfl, rfl, rfl⟩
  · exact .refl h

theorem charge_set (hc : h.cells[r.serial]? = some cell) {cell' : Cell}
    (heq : cell'.charged = cell.charged)
    (x : Ref) : (((h.cells.setIfInBounds r.serial cell')[x.serial]?).map (·.charged)).getD 0 =
      h.charge x :=
  congrArg (·.getD 0) (view_set_of_eq hc heq x)

/-! ## Marking -/

theorem ledger_mark (m : Marking) (r : Ref) : m.heap.Ledger (m.mark r).heap := by
  unfold Marking.mark
  split
  · exact .refl _
  · rename_i cell hc
    split
    · exact .refl _
    · obtain ⟨heap, gray⟩ := m
      refine (ledger_trace heap _).trans ⟨fun x => ?_, rfl, rfl⟩
      have hcells :
        (heap.trace fun _ => s!"slot {cell.slot} mark " ++ cell.object.kindName).cells[r.serial]? =
          some cell := by
        unfold trace
        split <;> exact hc
      exact charge_set hcells
        (show ({ cell with marked := true } : Cell).charged = cell.charged from rfl) x

theorem ledger_foldl_mark (l : List Ref) (m : Marking) :
    m.heap.Ledger (l.foldl Marking.mark m).heap := by
  induction l generalizing m with
  | nil => exact .refl _
  | cons r l ih => exact (ledger_mark m r).trans (ih _)

theorem ledger_drain (fuel : Nat) (m : Marking) : m.heap.Ledger (m.drain fuel).heap := by
  induction fuel generalizing m with
  | zero => exact .refl _
  | succ fuel ih =>
    obtain ⟨heap, gray⟩ := m
    cases gray with
    | nil => exact .refl _
    | cons r gray =>
      exact (ledger_foldl_mark (((heap.object? r).map Object.children).getD []) ⟨heap, gray⟩).trans
        (ih _)

theorem ledger_markFrom (h : Heap) (roots : Roots) : h.Ledger (h.markFrom roots) :=
  (ledger_foldl_mark roots.refs ⟨h, []⟩).trans (ledger_drain _ _)

/-! ## Sweeping -/

/-- Some slots of `g` are empty in `h`. Each of them counts one generation more, and what was
charged for the objects in them is no longer in use. -/
structure Balances (g h : Heap) : Prop where
  slotOf_eq : ∀ r, h.slotOf? r = g.slotOf? r
  slots_size : h.slots.size = g.slots.size
  slot : ∀ {i : Nat}, h.slots[i]? ≠ g.slots[i]? → (∃ r, g.slots[i]? = some (some r)) ∧
    h.slots[i]? = some none
  charge_eq : ∀ r, h.charge r = g.charge r
  bytes_eq : h.bytes - h.charges = g.bytes - g.charges
  generation : ∀ i : Nat, h.generations[i]? =
    (g.generations[i]?).map (· + if h.slots[i]? = g.slots[i]? then 0 else 1)

theorem Balances.refl (h : Heap) : h.Balances h := by
  refine ⟨fun _ => rfl, rfl, fun hne => (hne rfl).elim, fun _ => rfl, rfl, fun i => ?_⟩
  simp

theorem Balances.unmark (hb : g.Balances h) (hc : h.cells[r.serial]? = some cell) :
    g.Balances { h with cells := h.cells.setIfInBounds r.serial { cell with marked := false } } := by
  generalize hh' :
    ({ h with cells := h.cells.setIfInBounds r.serial { cell with marked := false } } : Heap) = h'
  have hcharge : ∀ x, h'.charge x = h.charge x := by
    rw [← hh']
    exact charge_set hc rfl
  have hcharges : h'.charges = h.charges := charges_congr (by rw [← hh']) fun _ => hcharge _
  have hslot : ∀ x, h'.slotOf? x = h.slotOf? x := by
    rw [← hh']
    exact view_set_of_eq hc rfl
  have hslots : h'.slots = h.slots := by rw [← hh']
  refine ⟨fun x => (hslot x).trans (hb.slotOf_eq x), hslots ▸ hb.slots_size, hslots ▸ hb.slot,
    fun x => (hcharge x).trans (hb.charge_eq x), ?_, ?_⟩
  · rw [hcharges, ← hb.bytes_eq, ← hh']
  · rw [← hh']
    exact hb.generation

theorem Balances.release (hb : g.Balances h) (hs : g.Swept i h) (hi : h.slots[i]? = some (some r))
    (hc : h.cells[r.serial]? = some cell) : g.Balances (h.release i r cell) := by
  have hcharge : ∀ x, (h.release i r cell).charge x = h.charge x := charge_set hc rfl
  have hlt := (Array.getElem?_eq_some_iff.1 hi).1
  have hslot : h.slots[i] = some r := (Array.getElem?_eq_some_iff.1 hi).2
  have hsum : (h.release i r cell).charges = h.charges - cell.charged := by
    rw [charges_set (s := none) rfl hlt hcharge, hslot]
    simp [chargeIn, charge, hc]
  have hslots := release_slots cell hi
  have hslotOf : ∀ x, (h.release i r cell).slotOf? x = h.slotOf? x := view_set_of_eq hc rfl
  refine ⟨fun x => (hslotOf x).trans (hb.slotOf_eq x), by simpa [Heap.release] using hb.slots_size,
    fun {j} hne => ?_, fun x => (hcharge x).trans (hb.charge_eq x), ?_, fun j => ?_⟩
  · rw [hslots] at hne ⊢
    split at hne
    · rename_i hij
      subst hij
      exact ⟨⟨r, (hs.later (Nat.le_refl i)).symm.trans hi⟩, if_pos rfl⟩
    · rename_i hij
      rw [if_neg hij]
      exact hb.slot hne
  · rw [hsum, ← hb.bytes_eq]
    simp only [Heap.release]
    omega
  · have hsame := hs.later (Nat.le_refl i)
    rw [hslots]
    simp only [Heap.release, Array.getElem?_modify, hb.generation j]
    by_cases hij : i = j
    · subst hij
      have hne : ¬ (some none = g.slots[i]?) := by
        rw [← hsame, hi]
        simp
      simp only [hsame, hne, if_true, if_false, Option.map_map]
      refine congrArg (Option.map · _) (funext fun n => ?_)
      simp
    · simp [hij]

theorem Balances.sweepSlot (hb : g.Balances h) (hs : g.Swept i h) : g.Balances (h.sweepSlot i).2 :=
  hs.slotted.sweepSlot_cases i (fun _ => hb) (fun _ hc _ => hb.unmark hc) fun hi hc _ =>
    hb.release hs hi hc

theorem Balances.sweepFrom (hg : g.Slotted) (count freed : Nat) (hb : g.Balances h)
    (hs : g.Swept i h) : g.Balances (h.sweepFrom count i freed).2 :=
  (sweepFrom_induct (P := fun i h => g.Balances h ∧ g.Swept i h)
    (fun ⟨hb, hs⟩ => ⟨hb.sweepSlot hs, hs.sweepSlot hg⟩) count freed ⟨hb, hs⟩).1

/-! ## Collections -/

/-- A collection marks, weeds and sweeps, and then reckons when the next one is due. -/
theorem collect_eq (h : Heap) (roots : Roots) : ∃ begun swept,
    swept = (((h.trace begun).markFrom roots).weeded.sweepFrom
      ((h.trace begun).markFrom roots).weeded.slots.size 0 0).2 ∧
      swept.Agrees (h.collect roots) ∧
      Ledger { swept with nextCollection := allowance swept.settings swept.bytes }
        (h.collect roots) := by
  refine ⟨fun _ => "-- gc begin", ?_⟩
  unfold collect weeded
  dsimp only
  generalize (h.trace fun _ => "-- gc begin").markFrom roots = g
  generalize (Heap.sweepFrom g.slots.size 0 0 _) = swept
  refine ⟨_, rfl, agrees_ended swept.2 _ _ _, ?_⟩
  refine Ledger.trans ?_ (ledger_trace ..)
  exact ⟨fun _ => rfl, rfl, rfl⟩

theorem Slotted.balances_collect (hs : h.Slotted) (roots : Roots) : h.Balances (h.collect roots) := by
  obtain ⟨begun, swept, hswept, hagrees, hended⟩ := h.collect_eq roots
  have hbegun := h.agrees_trace begun
  obtain ⟨hm, -⟩ := (h.trace begun).markFrom_spec roots
  have hledger := (h.ledger_trace begun).trans (ledger_markFrom _ roots)
  have htwin := hbegun.toTwin.trans hm.twin
  generalize (h.trace begun).markFrom roots = g at *
  have hslotted := (htwin.slotted hs).weeded
  have hb : g.weeded.Balances swept := by
    rw [hswept]
    exact (Balances.refl _).sweepFrom hslotted _ 0 (swept_start hslotted)
  have hslots : g.weeded.slots = h.slots := htwin.slots_eq
  have hcharges : g.weeded.charges = h.charges := charges_congr hslots fun _ => hledger.charge_eq _
  have hcharges' : (h.collect roots).charges = swept.charges :=
    charges_congr hagrees.slots_eq fun _ => hended.charge_eq _
  refine ⟨fun r => ((hagrees.slot_eq r).trans (hb.slotOf_eq r)).trans (htwin.slot_eq r), ?_,
    fun {i} hne => ?_,
    fun r => ((hended.charge_eq r).trans (hb.charge_eq r)).trans (hledger.charge_eq r),
    ?_, fun i => ?_⟩
  · rw [hagrees.slots_eq, hb.slots_size, hslots]
  · rw [hagrees.slots_eq, ← hslots] at hne ⊢
    exact hb.slot hne
  · have hbytes : g.weeded.bytes = h.bytes := hledger.bytes_eq
    have := hb.bytes_eq
    rw [hcharges', hended.bytes_eq]
    simp only
    omega
  · have hgen : g.weeded.generations = h.generations := htwin.generations_eq
    rw [hagrees.generations_eq, hagrees.slots_eq, hb.generation i, hgen, hslots]

/-- The next collection is never due before the least number of bytes is in use. -/
theorem threshold_le_collect (h : Heap) (roots : Roots) :
    (h.collect roots).settings.threshold ≤ (h.collect roots).nextCollection := by
  obtain ⟨-, swept, -, hagrees, hended⟩ := h.collect_eq roots
  rw [hended.next_eq, hagrees.settings_eq]
  exact Int.le_max_right ..

/-! ## New objects -/

theorem Registered.slots_register (hr : h.Registered) (o : Object) (i : Nat) :
    (h.register o).2.slots[i]? =
    if i = h.nextSlot then some (some (h.register o).1) else h.slots[i]? := by
  obtain ⟨message, heq⟩ := h.register_eq o
  rw [heq, (agrees_trace _ message).slots_eq]
  exact hr.claimed_slots i

theorem generations_register (h : Heap) (o : Object) (hi : i < h.generations.size) :
    (h.register o).2.generations[i]? = h.generations[i]? := by
  obtain ⟨message, heq⟩ := h.register_eq o
  rw [heq, (agrees_trace _ message).generations_eq]
  unfold claimed
  split
  · rfl
  · simp only [Array.getElem?_push, Nat.ne_of_lt hi, if_false]

theorem nextCollection_register (h : Heap) (o : Object) :
    (h.register o).2.nextCollection = h.nextCollection := by
  obtain ⟨message, heq⟩ := h.register_eq o
  rw [heq, (ledger_trace _ message).next_eq]
  unfold claimed
  split <;> rfl

theorem charge_register (h : Heap) (o : Object) (x : Ref) :
    (h.register o).2.charge x = if x.serial = h.cells.size then (o.size : Int) else h.charge x := by
  obtain ⟨message, heq⟩ := h.register_eq o
  rw [heq, (ledger_trace _ message).charge_eq]
  simp only [charge, claimed_cells, Array.getElem?_push]
  split <;> rfl

theorem bytes_register (h : Heap) (o : Object) : (h.register o).2.bytes = h.bytes + o.size := by
  obtain ⟨message, heq⟩ := h.register_eq o
  rw [heq, (ledger_trace _ message).bytes_eq]
  unfold claimed
  split <;> rfl

theorem Registered.charges_register (hr : h.Registered) (o : Object) :
    (h.register o).2.charges = h.charges + o.size := by
  obtain ⟨message, heq⟩ := h.register_eq o
  -- the objects registered before have the charges they had
  have hold : ∀ s ∈ h.slots.toList, (h.register o).2.chargeIn s = h.chargeIn s := by
    intro s hs
    cases s with
    | none => rfl
    | some x =>
      obtain ⟨i, hi⟩ := List.mem_iff_getElem?.1 hs
      rw [Array.getElem?_toList] at hi
      have hlt : x.serial < h.cells.size := Live.lt ⟨i, hr.slot_eq hi, hi⟩
      exact (charge_register h o x).trans (if_neg (Nat.ne_of_lt hlt))
  have hnew : (h.register o).2.chargeIn (some ⟨h.cells.size⟩) = o.size :=
    (charge_register h o _).trans (if_pos rfl)
  have hslots : (h.register o).2.slots = h.claimed.slots := by
    rw [heq]
    exact (agrees_trace _ message).slots_eq
  unfold charges
  rw [hslots, ← List.map_congr_left hold]
  unfold claimed
  split
  · rename_i slot free hfree
    have hslot : h.slots[slot]? = some none := hr.free_iff.1 (by rw [hfree]; exact List.mem_cons_self)
    obtain ⟨hlt, hslot⟩ := Array.getElem?_eq_some_iff.1 hslot
    rw [Array.toList_setIfInBounds, List.map_set, List.sum_set', hnew]
    simp [hlt, hslot, chargeIn]
  · rw [Array.toList_push, List.map_append, List.sum_append, List.map_singleton,
      List.sum_singleton, hnew]

theorem charge_setObject (h : Heap) (r : Ref) (o : Object) (x : Ref) :
    (h.setObject r o).charge x = h.charge x := by
  simp only [charge, Heap.setObject, Array.getElem?_modify]
  split <;> simp [Function.comp_def]

/-! ## Charging anew -/

theorem charge_recharge (hc : h.cells[r.serial]? = some cell) (x : Ref) :
    (h.recharge r).charge x = if r = x then (cell.object.size : Int) else h.charge x := by
  unfold recharge charge
  simp only [hc]
  rw [view_set _ hc]
  split <;> rfl

theorem Slotted.charges_recharge (hs : h.Slotted) (hl : h.Live r) :
    (h.recharge r).bytes - (h.recharge r).charges = h.bytes - h.charges := by
  obtain ⟨i, hslot, hi⟩ := hl
  obtain ⟨cell, hc, -⟩ := Option.map_eq_some_iff.1 hslot
  have hbytes : (h.recharge r).bytes = h.bytes + cell.object.size - cell.charged := by
    unfold recharge
    simp only [hc]
  have hlt := (Array.getElem?_eq_some_iff.1 hi).1
  have hget : h.slots[i] = some r := (Array.getElem?_eq_some_iff.1 hi).2
  have hslots : (h.recharge r).slots = h.slots := (h.agrees_recharge r).slots_eq
  -- only the slot of the object is charged otherwise
  have hsum : (h.slots.toList.map (h.recharge r).chargeIn) = (h.slots.toList.map h.chargeIn).set i
      cell.object.size := by
    refine List.ext_getElem? fun j => ?_
    simp only [List.getElem?_map, List.getElem?_set, Array.getElem?_toList, List.length_map,
      Array.length_toList]
    by_cases hij : i = j
    · subst hij
      rw [if_pos rfl, if_pos hlt, hi]
      exact congrArg some ((charge_recharge hc r).trans (if_pos rfl))
    · simp only [hij, if_false]
      cases hj : h.slots[j]? with
      | none => rfl
      | some s =>
        cases s with
        | none => rfl
        | some x =>
          have hne : r ≠ x := by
            rintro rfl
            exact hij (Option.some.inj ((hs.slot_eq hi).symm.trans (hs.slot_eq hj)))
          simp [chargeIn, charge_recharge hc, hne]
  have hcharge : h.charge r = cell.charged := by simp [charge, hc]
  unfold charges
  rw [hslots, hsum, List.sum_set', hbytes]
  simp [hlt, hget, chargeIn, hcharge]
  omega

/-! ## Counting -/

/-- The free list has the empty slots, each once, so the others are counted by the difference. -/
theorem Slotted.liveObjects_eq (hs : h.Slotted) : h.liveObjects = h.slots.countP (·.isSome) := by
  have hslots : h.slots.toList = (List.range h.slots.size).map fun i => (h.slots[i]?).getD none := by
    refine List.ext_getElem? fun i => ?_
    by_cases hi : i < h.slots.size
    · simp [hi]
    · simp [hi]
  have hperm :
      h.free.Perm ((List.range h.slots.size).filter fun i =>
      !((h.slots[i]?).getD none).isSome) := by
    refine (List.perm_ext_iff_of_nodup hs.free_nodup (List.nodup_range.filter _)).2 fun i => ?_
    rw [List.mem_filter, List.mem_range, hs.free_iff]
    constructor
    · intro hi
      exact ⟨(Array.getElem?_eq_some_iff.1 hi).1, by simp [hi]⟩
    · rintro ⟨hlt, hi⟩
      simpa [hlt] using hi
  have hempty : h.free.length = h.slots.toList.countP (!·.isSome) := by
    rw [hperm.length_eq, ← List.countP_eq_length_filter, hslots, List.countP_map]
    rfl
  have hall := List.length_eq_countP_add_countP (fun s : Option Ref => s.isSome) (l := h.slots.toList)
  have hnot : (fun s : Option Ref => decide ¬ s.isSome = true) = (!·.isSome) := by
    funext s
    cases s <;> rfl
  rw [Array.length_toList, hnot] at hall
  rw [liveObjects, hempty, ← Array.countP_toList]
  omega

end Parlance.Heap
