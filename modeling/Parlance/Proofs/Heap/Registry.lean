/-
  The registry of the heap.

  * `Agrees.sound`, `Sound.setObject`, `Sound.grown`: what keeps a heap sound, and `Agrees.interned`
    and its like: what keeps its table of strings in order.

  Soundness says nothing of roots. Objects in use are registered as long as every root is, since
  references do not leave the registry.
-/
import Parlance.Heap.Allocation
import Parlance.Proofs.Table

namespace Parlance.Heap

variable {h h' : Heap} {r x : Ref} {o : Object} {i : Nat}

/-! ## What a number stands for -/

/-- The slot in which an object is or was. -/
def slotOf? (h : Heap) (r : Ref) : Option Nat := (h.cells[r.serial]?).map (·.slot)

/-- The object is registered. -/
def Live (h : Heap) (r : Ref) : Prop := ∃ i, h.slotOf? r = some i ∧ h.slots[i]? = some (some r)

theorem Live.lt (hl : h.Live r) : r.serial < h.cells.size := by
  obtain ⟨i, hi, -⟩ := hl
  obtain ⟨c, hc, -⟩ := Option.map_eq_some_iff.1 hi
  exact (Array.getElem?_eq_some_iff.1 hc).1

theorem exists_object? (hlt : r.serial < h.cells.size) : ∃ o, h.object? r = some o :=
  ⟨h.cells[r.serial].object, by simp [object?, hlt]⟩

theorem Live.exists_object? (hl : h.Live r) : ∃ o, h.object? r = some o := Heap.exists_object? hl.lt

theorem Ref.serial_inj {r x : Ref} : r.serial = x.serial ↔ r = x := by
  cases r; cases x; simp

/-! ## Sound heaps -/

/-- Slots and registered objects know each other. -/
structure Slotted (h : Heap) : Prop where
  slot_eq : ∀ {i r}, h.slots[i]? = some (some r) → h.slotOf? r = some i
  free_iff : ∀ {i}, i ∈ h.free ↔ h.slots[i]? = some none
  free_nodup : h.free.Nodup
  generations_size : h.generations.size = h.slots.size

/-- The registry between collections: no object in it bears a mark. -/
structure Registered (h : Heap) : Prop extends Slotted h where
  unmarked : ∀ {r}, h.Live r → h.isMarked r = false

/-- The table of strings has the registered strings under their hashes, each text once. -/
structure Interned (h : Heap) : Prop where
  valid : h.strings.Valid
  holds_iff : ∀ {k : Symbol} {u}, h.strings.Holds k u ↔ h.Live k.ref ∧
    h.object? k.ref = some (.text k.text k.hash)
  hash_eq : ∀ {r s x}, h.Live r → h.object? r = some (.text s x) → x = hashText s
  unique : ∀ {r r' s x x'}, h.Live r → h.Live r' → h.object? r = some (.text s x) →
    h.object? r' = some (.text s x') → r = r'

/-- A heap as the machine keeps it. -/
structure Sound (h : Heap) : Prop extends Registered h, Interned h where
  closed : ∀ {r o}, h.Live r → h.object? r = some o → ∀ c ∈ o.children, h.Live c

/-- Objects that can be reached from some. -/
inductive Reach (h : Heap) (roots : List Ref) : Ref → Prop
  | root {r : Ref} : r ∈ roots → Reach h roots r
  | step {r c : Ref} {o : Object} : Reach h roots r → h.object? r = some o → c ∈ o.children →
      Reach h roots c

theorem Reach.mono {roots roots' : List Ref} (hr : Reach h roots r) (hsub : ∀ x ∈ roots, x ∈ roots') :
    Reach h roots' r := by
  induction hr with
  | root hx => exact .root (hsub _ hx)
  | step _ ho hc ih => exact .step ih ho hc

theorem Reach.congr {roots : List Ref} (heq : ∀ x, h'.object? x = h.object? x) (hr : Reach h roots r) :
    Reach h' roots r := by
  induction hr with
  | root hx => exact .root hx
  | step _ ho hc ih => exact .step ih ((heq _).trans ho) hc

theorem Sound.live_of_reach (hs : h.Sound) {roots : List Ref} (hroots : ∀ x ∈ roots, h.Live x)
    (hr : Reach h roots r) : h.Live r := by
  induction hr with
  | root hx => exact hroots _ hx
  | step _ ho hc ih => exact hs.closed ih ho _ hc

theorem sound_new (settings : HeapSettings) : (new settings).Sound := by
  have hdead : ∀ {r}, ¬ (new settings).Live r := fun ⟨i, hi, _⟩ => by simp [slotOf?, new] at hi
  exact {
    slot_eq := fun hi => by simp [new] at hi
    free_iff := by simp [new]
    free_nodup := List.nodup_nil
    generations_size := rfl
    unmarked := fun hl => (hdead hl).elim
    valid := Table.valid_empty
    holds_iff :=
      fun {k u} => ⟨fun ⟨i, hi⟩ => by simp [Table.LiveAt, new] at hi, fun hk => (hdead hk.1).elim⟩
    hash_eq := fun hl => (hdead hl).elim
    unique := fun hl => (hdead hl).elim
    closed := fun hl => (hdead hl).elim }

/-! ## Heaps that agree on the registry -/

/-- Same slots, same strings, and the same objects under all numbers. -/
structure Twin (h h' : Heap) : Prop where
  size_eq : h'.cells.size = h.cells.size
  object_eq : ∀ r, h'.object? r = h.object? r
  slot_eq : ∀ r, h'.slotOf? r = h.slotOf? r
  slots_eq : h'.slots = h.slots
  free_eq : h'.free = h.free
  generations_eq : h'.generations = h.generations
  strings_eq : h'.strings = h.strings
  settings_eq : h'.settings = h.settings

/-- Twins with the same marks. -/
structure Agrees (h h' : Heap) : Prop extends Twin h h' where
  marked_eq : ∀ r, h'.isMarked r = h.isMarked r

theorem Twin.refl (h : Heap) : h.Twin h := ⟨rfl, fun _ => rfl, fun _ => rfl, rfl, rfl, rfl, rfl, rfl⟩

theorem Twin.trans {h1 h2 h3 : Heap} (h12 : h1.Twin h2) (h23 : h2.Twin h3) : h1.Twin h3 where
  size_eq := h23.size_eq.trans h12.size_eq
  object_eq r := (h23.object_eq r).trans (h12.object_eq r)
  slot_eq r := (h23.slot_eq r).trans (h12.slot_eq r)
  slots_eq := h23.slots_eq.trans h12.slots_eq
  free_eq := h23.free_eq.trans h12.free_eq
  generations_eq := h23.generations_eq.trans h12.generations_eq
  strings_eq := h23.strings_eq.trans h12.strings_eq
  settings_eq := h23.settings_eq.trans h12.settings_eq

theorem Twin.live_iff (ht : h.Twin h') : h'.Live r ↔ h.Live r := by
  simp only [Live, ht.slot_eq, ht.slots_eq]

theorem Twin.slotted (ht : h.Twin h') (hr : h.Slotted) : h'.Slotted where
  slot_eq hi := by
    rw [ht.slots_eq] at hi
    rw [ht.slot_eq, hr.slot_eq hi]
  free_iff := by
    rw [ht.free_eq, ht.slots_eq]
    exact hr.free_iff
  free_nodup := ht.free_eq ▸ hr.free_nodup
  generations_size := by rw [ht.generations_eq, ht.slots_eq, hr.generations_size]

namespace Agrees

theorem refl (h : Heap) : h.Agrees h := ⟨.refl h, fun _ => rfl⟩

variable (ha : h.Agrees h')
include ha

theorem registered (hr : h.Registered) : h'.Registered where
  toSlotted := ha.slotted hr.toSlotted
  unmarked hl := by rw [ha.marked_eq, hr.unmarked (ha.live_iff.1 hl)]

theorem interned (hi : h.Interned) : h'.Interned where
  valid := ha.strings_eq ▸ hi.valid
  holds_iff := by
    intro k u
    rw [ha.strings_eq, hi.holds_iff, ha.live_iff, ha.object_eq]
  hash_eq hl ho := hi.hash_eq (ha.live_iff.1 hl) (ha.object_eq _ ▸ ho)
  unique hl hl' ho ho' :=
    hi.unique (ha.live_iff.1 hl) (ha.live_iff.1 hl') (ha.object_eq _ ▸ ho) (ha.object_eq _ ▸ ho')

theorem sound (hs : h.Sound) : h'.Sound where
  toRegistered := ha.registered hs.toRegistered
  toInterned := ha.interned hs.toInterned
  closed hl ho c hc := ha.live_iff.2 (hs.closed (ha.live_iff.1 hl) (ha.object_eq _ ▸ ho) c hc)

end Agrees

theorem agrees_note (h : Heap) (message : String) : h.Agrees (h.note message) :=
  ⟨⟨rfl, fun _ => rfl, fun _ => rfl, rfl, rfl, rfl, rfl, rfl⟩, fun _ => rfl⟩

theorem agrees_trace (h : Heap) (message : Unit → String) : h.Agrees (h.trace message) := by
  unfold trace
  split
  · exact agrees_note h _
  · exact .refl h

theorem agrees_recharge (h : Heap) (r : Ref) : h.Agrees (h.recharge r) := by
  unfold recharge
  cases hc : h.cells[r.serial]? with
  | none => exact .refl h
  | some cell =>
    have hget : ∀ {β : Type} (f : Cell → β) (x : Ref), (∀ n, f { cell with charged := n } = f cell) →
        ((h.cells.setIfInBounds r.serial { cell with charged := cell.object.size })[x.serial]?).map f =
          (h.cells[x.serial]?).map f := by
      intro β f x hf
      rw [Array.getElem?_setIfInBounds]
      split
      · rename_i heq
        rw [← heq, hc]
        simp [(Array.getElem?_eq_some_iff.1 hc).1, hf]
      · rfl
    refine ⟨⟨by simp, fun x => hget _ x fun _ => rfl, fun x => hget _ x fun _ =>
      rfl, rfl, rfl, rfl, rfl, rfl⟩, fun x => ?_⟩
    exact congrArg (·.getD false) (hget Cell.marked x fun _ => rfl)

/-! ## Changing an object -/

theorem object?_setObject (h : Heap) (r x : Ref) (o : Object) :
    (h.setObject r o).object? x = if r = x then (h.object? x).map fun _ => o else h.object? x := by
  simp only [object?, setObject, Array.getElem?_modify, Ref.serial_inj]
  split <;> simp [Function.comp_def]

theorem object?_setObject_self (ho : h.object? r = some o) (o' : Object) :
    (h.setObject r o').object? r = some o' := by
  simp [object?_setObject, ho]

theorem object?_setObject_of_ne (hne : r ≠ x) (o : Object) :
    (h.setObject r o).object? x = h.object? x := by
  simp [object?_setObject, hne]

@[simp] theorem slotOf?_setObject (h : Heap) (r x : Ref) (o : Object) :
    (h.setObject r o).slotOf? x = h.slotOf? x := by
  simp only [slotOf?, setObject, Array.getElem?_modify]
  split <;> simp [Function.comp_def]

@[simp] theorem isMarked_setObject (h : Heap) (r x : Ref) (o : Object) :
    (h.setObject r o).isMarked x = h.isMarked x := by
  simp only [isMarked, setObject, Array.getElem?_modify]
  split <;> simp [Function.comp_def]

@[simp] theorem live_setObject (h : Heap) (r x : Ref) (o : Object) :
    (h.setObject r o).Live x ↔ h.Live x := by
  simp only [Live, slotOf?_setObject]
  rfl

theorem Registered.setObject (hr : h.Registered) (x : Ref) (o : Object) :
    (h.setObject x o).Registered where
  slot_eq hi := by simpa using hr.slot_eq hi
  free_iff := hr.free_iff
  free_nodup := hr.free_nodup
  generations_size := hr.generations_size
  unmarked hl := by simpa using hr.unmarked ((live_setObject ..).1 hl)

/-- Strings are never changed, so an object of another kind can take a new content. -/
theorem Interned.setObject (hi : h.Interned) {old : Object} (hold : h.object? r = some old)
    (hnot : ∀ s x, old ≠ .text s x) (hnot' : ∀ s x, o ≠ .text s x) : (h.setObject r o).Interned where
  valid := hi.valid
  holds_iff := by
    intro k u
    rw [live_setObject, object?_setObject]
    have : (h.setObject r o).strings.Holds k u ↔ h.strings.Holds k u := Iff.rfl
    rw [this, hi.holds_iff]
    split
    · rename_i heq
      subst heq
      simp [hold, hnot, hnot']
    · rfl
  hash_eq := by
    intro x s n hl ho
    rw [object?_setObject] at ho
    split at ho
    · obtain ⟨_, -, ho⟩ := Option.map_eq_some_iff.1 ho
      exact (hnot' _ _ ho).elim
    · exact hi.hash_eq ((live_setObject ..).1 hl) ho
  unique := by
    intro x x' s n n' hl hl' ho ho'
    rw [object?_setObject] at ho ho'
    split at ho
    · obtain ⟨_, -, ho⟩ := Option.map_eq_some_iff.1 ho
      exact (hnot' _ _ ho).elim
    split at ho'
    · obtain ⟨_, -, ho'⟩ := Option.map_eq_some_iff.1 ho'
      exact (hnot' _ _ ho').elim
    · exact hi.unique ((live_setObject ..).1 hl) ((live_setObject ..).1 hl') ho ho'

theorem Sound.setObject (hs : h.Sound) {old : Object} (hold : h.object? r = some old)
    (hnot : ∀ s x, old ≠ .text s x) (hnot' : ∀ s x, o ≠ .text s x) (hc : ∀ c ∈ o.children, h.Live c) :
    (h.setObject r o).Sound where
  toRegistered := hs.toRegistered.setObject r o
  toInterned := hs.toInterned.setObject hold hnot hnot'
  closed := by
    intro x o' hl ho c hc'
    rw [live_setObject] at hl ⊢
    rw [object?_setObject] at ho
    split at ho
    · obtain ⟨_, -, rfl⟩ := Option.map_eq_some_iff.1 ho
      exact hc c hc'
    · exact hs.closed hl ho c hc'

/-! ## A new object -/

/-- The heap with one more object. -/
structure Grown (h : Heap) (o : Object) (r : Ref) (h' : Heap) : Prop where
  ref_eq : r = ⟨h.cells.size⟩
  size_eq : h'.cells.size = h.cells.size + 1
  object_new : h'.object? r = some o
  object_old : ∀ x, x.serial < h.cells.size → h'.object? x = h.object? x
  live_iff : ∀ x, h'.Live x ↔ x = r ∨ h.Live x
  registered : h'.Registered
  strings_eq : h'.strings = h.strings
  settings_eq : h'.settings = h.settings

theorem Grown.ne_of_live (hg : h.Grown o r h') (hl : h.Live x) : x ≠ r := by
  rintro rfl
  have := hl.lt
  rw [hg.ref_eq] at this
  exact Nat.lt_irrefl _ this

theorem Grown.object_of_live (hg : h.Grown o r h') (hl : h.Live x) : h'.object? x = h.object? x :=
  hg.object_old x hl.lt

section Register

variable (h o)

/-- The slot that the next object goes to. -/
def nextSlot : Nat :=
  match h.free with
  | slot :: _ => slot
  | [] => h.slots.size

/-- The registry with the next object in its slot. -/
def claimed : Heap :=
  match h.free with
  | slot :: free => { h with free, slots := h.slots.setIfInBounds slot (some ⟨h.cells.size⟩) }
  | [] => { h with
      slots := h.slots.push (some ⟨h.cells.size⟩)
      generations := h.generations.push 0 }

theorem register_eq : ∃ message, h.register o = (⟨h.cells.size⟩, Heap.trace { h.claimed with
      cells := h.claimed.cells.push { object := o, slot := h.nextSlot, charged := o.size }
      bytes := h.claimed.bytes + o.size } message) := by
  unfold register nextSlot claimed
  cases h.free with
  | nil => exact ⟨_, rfl⟩
  | cons slot free => exact ⟨_, rfl⟩

@[simp] theorem claimed_cells : h.claimed.cells = h.cells := by
  unfold claimed; split <;> rfl

@[simp] theorem claimed_strings : h.claimed.strings = h.strings := by
  unfold claimed; split <;> rfl

@[simp] theorem claimed_settings : h.claimed.settings = h.settings := by
  unfold claimed; split <;> rfl

end Register

theorem Registered.claimed_slots (hr : h.Registered) (i : Nat) :
    h.claimed.slots[i]? = if i = h.nextSlot then some (some ⟨h.cells.size⟩) else h.slots[i]? := by
  unfold claimed nextSlot
  cases hf : h.free with
  | nil =>
    simp only [Array.getElem?_push]
  | cons slot free =>
    have hslot : h.slots[slot]? = some none := hr.free_iff.1 (by rw [hf]; exact List.mem_cons_self)
    have hlt := (Array.getElem?_eq_some_iff.1 hslot).1
    simp only [Array.getElem?_setIfInBounds]
    by_cases heq : i = slot
    · subst heq
      simp [hlt]
    · simp [heq, Ne.symm heq]

theorem Registered.nextSlot_free (hr : h.Registered) : ∀ x, h.slots[h.nextSlot]? ≠ some (some x) := by
  intro x
  unfold nextSlot
  cases hf : h.free with
  | nil => simp
  | cons slot free =>
    have hslot : h.slots[slot]? = some none := hr.free_iff.1 (by rw [hf]; exact List.mem_cons_self)
    simp [hslot]

theorem Registered.claimed_free (hr : h.Registered) :
    h.claimed.free.Nodup ∧ (∀ {i}, i ∈ h.claimed.free ↔ h.claimed.slots[i]? = some none) ∧
      h.claimed.generations.size = h.claimed.slots.size := by
  have hslots := hr.claimed_slots
  have hnodup := hr.free_nodup
  have hiff := fun {i} => hr.free_iff (i := i)
  have hgen := hr.generations_size
  unfold claimed nextSlot at *
  cases hf : h.free with
  | nil =>
    simp only [hf] at hslots hnodup hiff ⊢
    refine ⟨hnodup, fun {i} => ?_, by simpa using hgen⟩
    rw [hslots]
    split
    · simp
    · exact hiff
  | cons slot free =>
    simp only [hf] at hslots hnodup hiff ⊢
    refine ⟨(List.nodup_cons.1 hnodup).2, fun {i} => ?_, by simpa using hgen⟩
    rw [hslots]
    split
    · rename_i heq
      subst heq
      simpa using (List.nodup_cons.1 hnodup).1
    · rename_i hne
      rw [← hiff]
      simp [hne]

/-- **A new object** goes to an empty slot, and nothing else changes. -/
theorem Registered.register (hr : h.Registered) (o : Object) :
    h.Grown o (h.register o).1 (h.register o).2 := by
  obtain ⟨message, heq⟩ := h.register_eq o
  rw [heq]
  -- the note about the allocation changes nothing
  refine (?_ : ∀ g : Heap, h.Grown o ⟨h.cells.size⟩ g → h.Grown o ⟨h.cells.size⟩ (g.trace message))
    _ ?_
  · intro g hg
    have ha := g.agrees_trace message
    exact ⟨rfl, ha.size_eq.trans hg.size_eq, (ha.object_eq _).trans hg.object_new,
      fun x hx => (ha.object_eq x).trans (hg.object_old x hx),
      fun x => ha.live_iff.trans (hg.live_iff x), ha.registered hg.registered,
      ha.strings_eq.trans hg.strings_eq, ha.settings_eq.trans hg.settings_eq⟩
  generalize hg : ({ h.claimed with
    cells := h.claimed.cells.push { object := o, slot := h.nextSlot, charged := o.size }
    bytes := h.claimed.bytes + o.size } : Heap) = g
  have hcells : g.cells = h.cells.push { object := o, slot := h.nextSlot, charged := o.size } := by
    simp [← hg]
  have hslots : ∀ i : Nat, g.slots[i]? =
      if i = h.nextSlot then some (some ⟨h.cells.size⟩) else h.slots[i]? := by
    intro i
    rw [← hg]
    exact hr.claimed_slots i
  have hold : ∀ x : Ref, x.serial ≠ h.cells.size → g.cells[x.serial]? = h.cells[x.serial]? := by
    intro x hx
    rw [hcells, Array.getElem?_push, if_neg hx]
  have hnew : g.cells[h.cells.size]? =
      some { object := o, slot := h.nextSlot, charged := o.size } := by
    rw [hcells, Array.getElem?_push, if_pos rfl]
  have hlive : ∀ x, g.Live x ↔ x = ⟨h.cells.size⟩ ∨ h.Live x := by
    intro x
    by_cases hx : x.serial = h.cells.size
    · obtain rfl : x = ⟨h.cells.size⟩ := by cases x; simpa using hx
      refine iff_of_true ⟨h.nextSlot, ?_, ?_⟩ (Or.inl rfl)
      · simp [slotOf?, hnew]
      · rw [hslots, if_pos rfl]
    · have hne : x ≠ ⟨h.cells.size⟩ := fun heq => hx (by rw [heq])
      simp only [hne, false_or, Live, slotOf?, hold x hx, hslots]
      constructor
      · rintro ⟨i, hi, hsi⟩
        split at hsi
        · simp only [Option.some.injEq] at hsi
          exact (hne hsi.symm).elim
        · exact ⟨i, hi, hsi⟩
      · rintro ⟨i, hi, hsi⟩
        refine ⟨i, hi, ?_⟩
        rw [if_neg]
        · exact hsi
        · rintro rfl
          exact hr.nextSlot_free _ hsi
  obtain ⟨hnodup, hfree, hgen⟩ := hr.claimed_free
  refine ⟨rfl, by simp [hcells], by simp [object?, hnew], ?_, hlive,
    ?_, by simp [← hg], by simp [← hg]⟩
  · intro x hx
    simp [object?, hold x (Nat.ne_of_lt hx)]
  · refine ⟨⟨?_, ?_, ?_, ?_⟩, ?_⟩
    · intro i x hi
      rw [hslots] at hi
      split at hi
      · rename_i heq
        simp only [Option.some.injEq] at hi
        subst hi
        simp [slotOf?, hnew, heq]
      · have hx := hr.slot_eq hi
        have hlt : x.serial < h.cells.size := Live.lt ⟨i, hx, hi⟩
        rw [slotOf?, hold x (Nat.ne_of_lt hlt)]
        exact hx
    · rw [← hg]
      exact hfree
    · rw [← hg]
      exact hnodup
    · rw [← hg]
      exact hgen
    · intro x hx
      rcases (hlive x).1 hx with rfl | hx
      · simp [isMarked, hnew]
      · rw [isMarked, hold x (Nat.ne_of_lt hx.lt)]
        exact hr.unmarked hx

theorem Interned.grown (hi : h.Interned) (hg : h.Grown o r h') (hnot : ∀ s x, o ≠ .text s x) :
    h'.Interned where
  valid := hg.strings_eq ▸ hi.valid
  holds_iff := by
    intro k u
    rw [hg.strings_eq, hi.holds_iff, hg.live_iff]
    constructor
    · rintro ⟨hl, ho⟩
      exact ⟨Or.inr hl, (hg.object_of_live hl).trans ho⟩
    · rintro ⟨heq | hl, ho⟩
      · rw [heq, hg.object_new] at ho
        exact (hnot _ _ (Option.some.inj ho)).elim
      · exact ⟨hl, (hg.object_of_live hl).symm.trans ho⟩
  hash_eq := by
    intro x s n hl ho
    rcases (hg.live_iff x).1 hl with rfl | hl
    · rw [hg.object_new] at ho
      exact (hnot _ _ (Option.some.inj ho)).elim
    · exact hi.hash_eq hl ((hg.object_of_live hl).symm.trans ho)
  unique := by
    intro x x' s n n' hl hl' ho ho'
    rcases (hg.live_iff x).1 hl with rfl | hl
    · rw [hg.object_new] at ho
      exact (hnot _ _ (Option.some.inj ho)).elim
    rcases (hg.live_iff x').1 hl' with rfl | hl'
    · rw [hg.object_new] at ho'
      exact (hnot _ _ (Option.some.inj ho')).elim
    exact hi.unique hl hl' ((hg.object_of_live hl).symm.trans ho)
      ((hg.object_of_live hl').symm.trans ho')

theorem Sound.grown (hs : h.Sound) (hg : h.Grown o r h') (hnot : ∀ s x, o ≠ .text s x)
    (hc : ∀ c ∈ o.children, h.Live c) : h'.Sound where
  toRegistered := hg.registered
  toInterned := hs.toInterned.grown hg hnot
  closed := by
    intro x o' hl ho c hc'
    rw [hg.live_iff]
    rcases (hg.live_iff x).1 hl with rfl | hl
    · rw [hg.object_new] at ho
      cases ho
      exact Or.inr (hc c hc')
    · exact Or.inr (hs.closed hl ((hg.object_of_live hl).symm.trans ho) c hc')

end Parlance.Heap
