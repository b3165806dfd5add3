/-
  What can happen to a heap.
-/
import Parlance.Proofs.Heap.Exactness
import Parlance.Proofs.Heap.Ledger

namespace Parlance.Heap

-- no proof here looks into collections
attribute [local irreducible] collect

variable {h h' h'' : Heap} {r x : Ref} {o : Object} {i n : Nat} {generation : UInt32}

/-! ## Steps -/

/-- What running scripts ask of a heap. -/
inductive Move (h : Heap) : Heap → Prop
  | intern (roots : Roots) (text : String) : Move h (h.intern roots text).2
  | allocate (roots : Roots) {o : Object} (other : ∀ s x, o ≠ .text s x) :
      Move h (h.allocate roots o).2
  /-- An object other than a string takes a content of the same size. -/
  | change {r : Ref} {old o : Object} (there : h.object? r = some old) (other : ∀ s x, old ≠ .text s x)
      (other' : ∀ s x, o ≠ .text s x) (size : o.size = old.size) : Move h (h.setObject r o)
  | collect (roots : Roots) : Move h (h.collect roots)
  | note (message : String) : Move h (h.note message)

/-- What is asked of a heap. Only registered objects are charged anew. -/
inductive Step (h : Heap) : Heap → Prop
  | move {h' : Heap} (moved : h.Move h') : Step h h'
  /-- An object other than a string takes another content. -/
  | fill {r : Ref} {old o : Object} (there : h.object? r = some old) (other : ∀ s x, old ≠ .text s x)
      (other' : ∀ s x, o ≠ .text s x) : Step h (h.setObject r o)
  | recharge {r : Ref} (live : h.Live r) : Step h (h.recharge r)

/-- The heaps that steps lead to. -/
inductive Reached : Heap → Prop
  | new (settings : HeapSettings) : Reached (new settings)
  | step {h h' : Heap} (before : Reached h) (taken : h.Step h') : Reached h'
  | freeAll {h : Heap} (before : Reached h) : Reached h.freeAll

/-! ## Order -/

/-- A heap in order between collections: slots and objects know each other, the free list has the
empty slots, no registered object bears a mark, the table has the registered strings, the bytes in
use are those charged, and collections are not due too early. -/
structure Orderly (h : Heap) : Prop extends Registered h, Interned h where
  bytes_eq : h.bytes = h.charges
  threshold_le : h.settings.threshold ≤ h.nextCollection

theorem Orderly.charged (ho : h.Orderly) (o : Object) :
    (h.register o).2.bytes = (h.register o).2.charges ∧
    (h.register o).2.settings.threshold ≤ (h.register o).2.nextCollection := by
  rw [bytes_register, ho.charges_register, ho.bytes_eq, nextCollection_register,
    (ho.register o).settings_eq]
  exact ⟨rfl, ho.threshold_le⟩

theorem orderly_new (settings : HeapSettings) : (new settings).Orderly where
  toRegistered := (sound_new settings).toRegistered
  toInterned := (sound_new settings).toInterned
  bytes_eq := rfl
  threshold_le := Int.le_refl _

namespace Orderly

section

variable (ho : h.Orderly) (roots : Roots)
include ho roots

theorem collect : (h.collect roots).Orderly := by
  obtain ⟨M, hc, -⟩ := ho.culled_collect roots
  have hb := ho.balances_collect roots
  refine ⟨hc.registered, hc.interned ho.toInterned, ?_, h.threshold_le_collect roots⟩
  have hbytes := hb.bytes_eq
  rw [ho.bytes_eq] at hbytes
  omega

/-- The heap in which an object is registered: after a collection, where one is due. -/
theorem exists_register (o : Object) :
    ∃ g, g.Orderly ∧ (g = h ∨ g = h.collect roots) ∧ h.allocate roots o = g.register o := by
  obtain ⟨g, hg, heq⟩ := h.allocate_eq roots o
  refine ⟨g, ?_, hg, heq⟩
  rcases hg with rfl | rfl
  · exact ho
  · exact ho.collect roots

theorem allocate (hnot : ∀ s x, o ≠ .text s x) : (h.allocate roots o).2.Orderly := by
  obtain ⟨g, hg, -, heq⟩ := ho.exists_register roots o
  rw [heq]
  have hgrown := hg.register o
  exact ⟨hgrown.registered, hg.toInterned.grown hgrown hnot, (hg.charged o).1, (hg.charged o).2⟩

/-- A string that the table does not have is not there after a collection either. -/
theorem findText?_collect {text : String}
    (hnone : h.strings.findText? text (hashText text) = none) :
    (h.collect roots).strings.findText? text (hashText text) = none := by
  obtain ⟨M, hc, -⟩ := ho.culled_collect roots
  cases hfind : (h.collect roots).strings.findText? text (hashText text) with
  | none => rfl
  | some k =>
    obtain ⟨ht, hl, hk⟩ := (hc.interned ho.toInterned).findText?_eq_some_iff.1 hfind
    have hfound : h.strings.findText? text (hashText text) = some k :=
      ho.findText?_eq_some_iff.2 ⟨ht, ((hc.live_iff _).1 hl).1, (hc.object_eq _ hl).symm.trans hk⟩
    rw [hnone] at hfound
    cases hfound

theorem intern (text : String) : (h.intern roots text).2.Orderly := by
  unfold Heap.intern
  dsimp only
  cases hfind : h.strings.findText? text (hashText text) with
  | some key => exact ho
  | none =>
    obtain ⟨g, hg, hcases, heq⟩ := ho.exists_register roots (.text text (hashText text))
    have hnone : g.strings.findText? text (hashText text) = none := by
      rcases hcases with rfl | rfl
      · exact hfind
      · exact ho.findText?_collect roots hfind
    have hgrown := hg.register (.text text (hashText text))
    have hinterned := hg.toInterned.grown_text hgrown hnone
    have hcharged := hg.charged (.text text (hashText text))
    dsimp only
    rw [heq]
    have hr := hgrown.registered
    exact ⟨⟨⟨hr.slot_eq, hr.free_iff, hr.free_nodup, hr.generations_size⟩, hr.unmarked⟩, hinterned,
      hcharged.1, hcharged.2⟩

end

theorem setObject (ho : h.Orderly) {old : Object} (hold : h.object? r = some old)
    (hnot : ∀ s x, old ≠ .text s x) (hnot' : ∀ s x, o ≠ .text s x) : (h.setObject r o).Orderly where
  toRegistered := ho.toRegistered.setObject r o
  toInterned := ho.toInterned.setObject hold hnot hnot'
  bytes_eq := by
    have hcharges : (h.setObject r o).charges = h.charges :=
      charges_congr rfl fun _ => charge_setObject ..
    exact ho.bytes_eq.trans hcharges.symm
  threshold_le := ho.threshold_le

theorem note (ho : h.Orderly) (message : String) : (h.note message).Orderly where
  toRegistered := (h.agrees_note message).registered ho.toRegistered
  toInterned := (h.agrees_note message).interned ho.toInterned
  bytes_eq := ho.bytes_eq
  threshold_le := ho.threshold_le

theorem recharge (ho : h.Orderly) (hl : h.Live r) : (h.recharge r).Orderly := by
  have ha := h.agrees_recharge r
  have hbytes := ho.charges_recharge hl
  have hnext : (h.recharge r).nextCollection = h.nextCollection := by
    unfold Heap.recharge
    split <;> rfl
  refine ⟨ha.registered ho.toRegistered, ha.interned ho.toInterned, ?_, ?_⟩
  · rw [ho.bytes_eq] at hbytes
    omega
  · rw [hnext, ha.settings_eq]
    exact ho.threshold_le

theorem freeAll (h : Heap) : h.freeAll.Orderly := by
  have hdead : ∀ {r}, ¬ h.freeAll.Live r := by
    rintro r ⟨i, -, hi⟩
    simp [Heap.freeAll] at hi
  exact {
    slot_eq := fun hi => by simp [Heap.freeAll] at hi
    free_iff := by simp [Heap.freeAll]
    free_nodup := List.nodup_nil
    generations_size := rfl
    unmarked := fun hl => (hdead hl).elim
    valid := Table.valid_empty
    holds_iff := fun {k u} =>
      ⟨fun ⟨i, hi⟩ => by simp [Table.LiveAt, Heap.freeAll] at hi, fun hk => (hdead hk.1).elim⟩
    hash_eq := fun hl => (hdead hl).elim
    unique := fun hl => (hdead hl).elim
    bytes_eq := rfl
    threshold_le := Int.le_refl _ }

theorem move (ho : h.Orderly) (hm : h.Move h') : h'.Orderly := by
  cases hm with
  | intern roots text => exact ho.intern roots text
  | allocate roots other => exact ho.allocate roots other
  | change there other other' => exact ho.setObject there other other'
  | collect roots => exact ho.collect roots
  | note message => exact ho.note message

theorem step (ho : h.Orderly) (hs : h.Step h') : h'.Orderly := by
  cases hs with
  | move moved => exact ho.move moved
  | fill there other other' => exact ho.setObject there other other'
  | recharge live => exact ho.recharge live

end Orderly

/-- **Every heap that is reached is in order.** -/
theorem Reached.orderly (hr : h.Reached) : h.Orderly := by
  induction hr with
  | new settings => exact orderly_new settings
  | step _ taken ih => exact ih.step taken
  | freeAll => exact .freeAll _

/-! ## Marks -/

/-- The heaps that are reached while roots, and what objects refer to, are registered. -/
inductive WellRooted : Heap → Prop
  | new (settings : HeapSettings) : WellRooted (new settings)
  | intern {h : Heap} {roots : Roots} (before : WellRooted h) (live : ∀ r ∈ roots.refs, h.Live r)
      (text : String) : WellRooted (h.intern roots text).2
  | allocate {h : Heap} {roots : Roots} {o : Object} (before : WellRooted h)
      (live : ∀ r ∈ roots.refs, h.Live r)
      (other : ∀ s x, o ≠ .text s x) (children : ∀ c ∈ o.children, h.Reach roots.refs c) :
      WellRooted (h.allocate roots o).2
  | fill {h : Heap} {r : Ref} {old o : Object} (before : WellRooted h) (there : h.object? r = some old)
      (other : ∀ s x, old ≠ .text s x) (other' : ∀ s x, o ≠ .text s x)
      (children : ∀ c ∈ o.children, h.Live c) : WellRooted (h.setObject r o)
  | recharge {h : Heap} {r : Ref} (before : WellRooted h) : WellRooted (h.recharge r)
  | collect {h : Heap} {roots : Roots} (before : WellRooted h) (live : ∀ r ∈ roots.refs, h.Live r) :
      WellRooted (h.collect roots)
  | note {h : Heap} {message : String} (before : WellRooted h) : WellRooted (h.note message)
  | freeAll {h : Heap} (before : WellRooted h) : WellRooted h.freeAll

theorem isMarked_register (hclear : ∀ r, h.isMarked r = false) (o : Object) (x : Ref) :
    (h.register o).2.isMarked x = false := by
  obtain ⟨message, heq⟩ := h.register_eq o
  rw [heq, (agrees_trace _ message).marked_eq]
  have hx := hclear x
  simp only [isMarked, claimed_cells, Array.getElem?_push] at hx ⊢
  split
  · rfl
  · exact hx

theorem Sound.isMarked_allocate (hs : h.Sound) {roots : Roots} (hroots : ∀ r ∈ roots.refs, h.Live r)
    (hclear : ∀ r, h.isMarked r = false) (o : Object) (x : Ref) :
    (h.allocate roots o).2.isMarked x = false := by
  obtain ⟨g, hg, heq⟩ := h.allocate_eq roots o
  rw [heq]
  refine isMarked_register (fun r => ?_) o x
  rcases hg with rfl | rfl
  · exact hclear r
  · exact hs.unmarked_collect hroots hclear r

theorem isMarked_freeAll (h : Heap) (x : Ref) : h.freeAll.isMarked x = h.isMarked x := by
  have hfold : ∀ {f : Array Cell → Option Ref → Array Cell},
      (∀ cells s, ((f cells s)[x.serial]?).map (·.marked) = (cells[x.serial]?).map (·.marked)) →
      ∀ (slots : List (Option Ref)) (cells : Array Cell),
        ((slots.foldl f cells)[x.serial]?).map (·.marked) = (cells[x.serial]?).map (·.marked) := by
    intro f hf slots
    induction slots with
    | nil => exact fun _ => rfl
    | cons s slots ih => exact fun cells => (ih (f cells s)).trans (hf cells s)
  unfold isMarked
  simp only [Heap.freeAll, ← Array.foldl_toList]
  refine congrArg (·.getD false) (hfold (fun cells s => ?_) _ _)
  cases s with
  | none => rfl
  | some r =>
    simp only [Array.getElem?_modify]
    split <;> simp [Function.comp_def]

/-- **No object bears a mark outside collections**, while roots and references are registered. -/
theorem WellRooted.clear (ht : h.WellRooted) : h.Sound ∧ ∀ r, h.isMarked r = false := by
  induction ht with
  | new settings => exact ⟨sound_new settings, fun r => by simp [isMarked, Heap.new]⟩
  | @intern h roots _ live text ih =>
    refine ⟨(ih.1.intern live text).sound, fun r => ?_⟩
    unfold Heap.intern
    dsimp only
    split
    · exact ih.2 r
    · exact ih.1.isMarked_allocate live ih.2 _ r
  | allocate _ live other children ih =>
    exact ⟨(ih.1.allocate live other children).sound, ih.1.isMarked_allocate live ih.2 _⟩
  | @fill h r old o _ there other other' children ih =>
    refine ⟨ih.1.setObject there other other' children, fun x => ?_⟩
    simpa using ih.2 x
  | @recharge h r _ ih =>
    have ha := h.agrees_recharge r
    exact ⟨ha.sound ih.1, fun x => (ha.marked_eq x).trans (ih.2 x)⟩
  | collect _ live ih => exact ⟨(ih.1.collect live).sound, ih.1.unmarked_collect live ih.2⟩
  | @note h message _ ih =>
    have ha := h.agrees_note message
    exact ⟨ha.sound ih.1, fun x => (ha.marked_eq x).trans (ih.2 x)⟩
  | @freeAll h _ ih =>
    have ho := Orderly.freeAll h
    have hdead : ∀ {r}, ¬ h.freeAll.Live r := by
      rintro r ⟨i, -, hi⟩
      simp [Heap.freeAll] at hi
    refine ⟨⟨ho.toRegistered, ho.toInterned, fun hl => (hdead hl).elim⟩, fun x => ?_⟩
    exact (isMarked_freeAll h x).trans (ih.2 x)

/-! ## Slots over time -/

/-- One if the object in slot `i` leaves it from `h` to `h'`, or else none. -/
def leaving (i : Nat) (h h' : Heap) : Nat :=
  match h.slots[i]? with
  | some (some r) => if h'.slots[i]? = some (some r) then 0 else 1
  | _ => 0

/-- Steps in a row, in which objects leave slot `i` so many times. -/
inductive Passes (i : Nat) (h : Heap) : (times : Nat) → Heap → Prop
  | refl : Passes i h 0 h
  | step {times : Nat} {h' h'' : Heap} (before : Passes i h times h') (taken : h'.Step h'') :
      Passes i h (times + leaving i h' h'') h''

/-- From `h` to `h'` slots count the objects that leave them, and what has left its slot does not
come back. -/
structure Counts (h h' : Heap) : Prop where
  size_le : h.cells.size ≤ h'.cells.size
  slots_le : h.slots.size ≤ h'.slots.size
  slotOf_eq : ∀ {r : Ref}, r.serial < h.cells.size → h'.slotOf? r = h.slotOf? r
  generation : ∀ {i : Nat}, i < h.slots.size →
    h'.generations[i]? = (h.generations[i]?).map (· + UInt32.ofNat (leaving i h h'))
  old : ∀ {i : Nat} {r}, h'.slots[i]? = some (some r) → r.serial < h.cells.size →
    h.slots[i]? = some (some r)

theorem leaving_of_slots (heq : h'.slots[i]? = h.slots[i]?) : leaving i h h' = 0 := by
  unfold leaving
  split
  · rename_i hi
    rw [heq, if_pos hi]
  · rfl

theorem Twin.counts (ht : h.Twin h') : h.Counts h' where
  size_le := Nat.le_of_eq ht.size_eq.symm
  slots_le := Nat.le_of_eq (congrArg Array.size ht.slots_eq.symm)
  slotOf_eq _ := ht.slot_eq _
  generation {i} _ := by
    rw [ht.generations_eq, leaving_of_slots (congrArg (·[i]?) ht.slots_eq)]
    simp
  old hi _ := by rwa [ht.slots_eq] at hi

theorem Registered.counts_collect (hr : h.Registered) (roots : Roots) :
    h.Counts (h.collect roots) := by
  obtain ⟨M, hc, -⟩ := hr.culled_collect roots
  have hb := hr.balances_collect roots
  refine ⟨Nat.le_of_eq hc.size_eq.symm, Nat.le_of_eq hb.slots_size.symm, fun _ => hb.slotOf_eq _,
    fun {i} hi => ?_, fun {i r} hi _ => ?_⟩
  · rw [hb.generation i]
    by_cases heq : (h.collect roots).slots[i]? = h.slots[i]?
    · rw [leaving_of_slots heq, if_pos heq]
      rfl
    · obtain ⟨⟨x, hx⟩, hempty⟩ := hb.slot heq
      have hone : leaving i h (h.collect roots) = 1 := by simp [leaving, hx, hempty]
      rw [hone, if_neg heq]
      rfl
  · by_cases heq : (h.collect roots).slots[i]? = h.slots[i]?
    · exact heq.symm.trans hi
    · rw [(hb.slot heq).2] at hi
      cases hi

theorem Counts.register (hc : h.Counts h') (hs : h.Slotted) (hr : h'.Registered) (o : Object) :
    h.Counts (h'.register o).2 := by
  have hg := hr.register o
  have hslots := hr.slots_register o
  have hfresh : ∀ {x : Ref}, x.serial < h.cells.size → x ≠ (h'.register o).1 := by
    rintro x hlt rfl
    rw [hg.ref_eq] at hlt
    exact Nat.lt_irrefl _ (Nat.lt_of_lt_of_le hlt hc.size_le)
  -- an object from before is in a slot exactly if it was there before the new one came
  have hiff : ∀ {i : Nat} {x : Ref}, x.serial < h.cells.size →
      ((h'.register o).2.slots[i]? = some (some x) ↔ h'.slots[i]? = some (some x)) := by
    intro i x hlt
    rw [hslots]
    split
    · rename_i hi
      constructor
      · intro hx
        exact (hfresh hlt (by simpa using hx.symm)).elim
      · intro hx
        rw [hi] at hx
        exact (hr.nextSlot_free x hx).elim
    · rfl
  refine ⟨?_, ?_, fun {x} hlt => ?_, fun {i} hi => ?_, fun hi hlt => hc.old ((hiff hlt).1 hi) hlt⟩
  · have := hg.size_eq
    have := hc.size_le
    omega
  · refine Nat.le_trans hc.slots_le (Nat.le_of_not_lt fun hlt => ?_)
    have hnone : (h'.register o).2.slots[(h'.register o).2.slots.size]? = none := by simp
    rw [hslots] at hnone
    split at hnone
    · cases hnone
    · exact absurd (Array.getElem?_eq_none_iff.1 hnone) (Nat.not_le.2 hlt)
  · obtain ⟨message, heq⟩ := h'.register_eq o
    have hne : x.serial ≠ h'.cells.size := Nat.ne_of_lt (Nat.lt_of_lt_of_le hlt hc.size_le)
    rw [heq, (agrees_trace _ message).slot_eq, ← hc.slotOf_eq hlt]
    simp [slotOf?, Array.getElem?_push, hne]
  · have hsame : leaving i h (h'.register o).2 = leaving i h h' := by
      unfold leaving
      split
      · rename_i x hx
        have hlt : x.serial < h.cells.size := Live.lt ⟨i, hs.slot_eq hx, hx⟩
        simp only [hiff hlt]
      · rfl
    rw [generations_register h' o (hr.generations_size ▸ Nat.lt_of_lt_of_le hi hc.slots_le),
      hc.generation hi, hsame]

theorem Orderly.counts_allocate (ho : h.Orderly) (roots : Roots) (o : Object) :
    h.Counts (h.allocate roots o).2 := by
  obtain ⟨g, hg, hcases, heq⟩ := ho.exists_register roots o
  rw [heq]
  refine Counts.register ?_ ho.toSlotted hg.toRegistered o
  rcases hcases with rfl | rfl
  · exact (Twin.refl g).counts
  · exact ho.counts_collect roots

theorem Orderly.counts_intern (ho : h.Orderly) (roots : Roots) (text : String) :
    h.Counts (h.intern roots text).2 := by
  unfold Heap.intern
  dsimp only
  split
  · exact (Twin.refl h).counts
  · have hc := ho.counts_allocate roots (.text text (hashText text))
    exact ⟨hc.size_le, hc.slots_le, hc.slotOf_eq, hc.generation, hc.old⟩

theorem counts_setObject (h : Heap) (r : Ref) (o : Object) : h.Counts (h.setObject r o) where
  size_le := by simp [setObject]
  slots_le := Nat.le_refl _
  slotOf_eq _ := slotOf?_setObject ..
  generation {i} _ := by
    rw [@leaving_of_slots h (h.setObject r o) i rfl]
    simp [setObject]
  old hi _ := hi

theorem Orderly.counts (ho : h.Orderly) (hs : h.Step h') : h.Counts h' := by
  cases hs with
  | move moved =>
    cases moved with
    | intern roots text => exact ho.counts_intern roots text
    | allocate roots => exact ho.counts_allocate roots _
    | change => exact counts_setObject ..
    | collect roots => exact ho.counts_collect roots
    | note message => exact (h.agrees_note message).counts
  | fill => exact counts_setObject ..
  | @recharge r => exact (h.agrees_recharge r).counts

theorem Passes.orderly (hp : h.Passes i n h') (ho : h.Orderly) : h'.Orderly := by
  induction hp with
  | refl => exact ho
  | step _ taken ih => exact ih.step taken

theorem Passes.trans {n' : Nat} (hp : h.Passes i n h') (hp' : h'.Passes i n' h'') :
    h.Passes i (n + n') h'' := by
  induction hp' with
  | refl => exact hp
  | step _ taken ih =>
    rw [← Nat.add_assoc]
    exact ih.step taken

/-- What becomes of an object in slot `i` and of the slot: the slot counts, and the object is in it
until something has left it. -/
structure Tracked (i : Nat) (r : Ref) (generation : UInt32) (h : Heap) (times : Nat) : Prop where
  lt : r.serial < h.cells.size
  inside : i < h.slots.size
  slotOf_eq : h.slotOf? r = some i
  generation_eq : h.generations[i]? = some (generation + UInt32.ofNat times)
  slot_iff : h.slots[i]? = some (some r) ↔ times = 0

theorem Tracked.step (ht : Tracked i r generation h n) (ho : h.Orderly) (hs : h.Step h') :
    Tracked i r generation h' (n + leaving i h h') := by
  have hc := ho.counts hs
  refine ⟨Nat.lt_of_lt_of_le ht.lt hc.size_le, Nat.lt_of_lt_of_le ht.inside hc.slots_le,
    (hc.slotOf_eq ht.lt).trans ht.slotOf_eq, ?_, ?_⟩
  · rw [hc.generation ht.inside, ht.generation_eq, Option.map_some, UInt32.ofNat_add, UInt32.add_assoc]
  · constructor
    · intro hi
      have hbefore := hc.old hi ht.lt
      rw [ht.slot_iff.1 hbefore, leaving, hbefore]
      simp [hi]
    · intro hzero
      have hbefore := ht.slot_iff.2 (by omega)
      have hstays : leaving i h h' = 0 := by omega
      simpa [leaving, hbefore] using hstays

theorem Passes.tracked (hp : h.Passes i n h') (ho : h.Orderly)
    (ht : Tracked i r generation h 0) : Tracked i r generation h' n := by
  induction hp with
  | refl => exact ht
  | step before taken ih => exact ih.step (before.orderly ho) taken

theorem Registered.tracked (hr : h.Registered) (hl : h.Live r) :
    ∃ (i : Nat) (generation : UInt32), h.handle? r = some ⟨i, generation⟩ ∧
      Tracked i r generation h 0 := by
  obtain ⟨i, hslot, hi⟩ := hl
  have hlt := (Array.getElem?_eq_some_iff.1 hi).1
  obtain ⟨generation, hgen⟩ : ∃ generation, h.generations[i]? = some generation :=
    ⟨_, Array.getElem?_eq_getElem (hr.generations_size ▸ hlt)⟩
  obtain ⟨cell, hc, hcell⟩ := Option.map_eq_some_iff.1 hslot
  refine ⟨i, generation, ?_, Live.lt ⟨i, hslot, hi⟩, hlt, hslot, by simp [hgen], by simp [hi]⟩
  simp [handle?, hc, hcell, hgen]

theorem Tracked.live_iff (ht : Tracked i r generation h n) : h.Live r ↔ n = 0 := by
  rw [← ht.slot_iff]
  constructor
  · rintro ⟨j, hslot, hj⟩
    rw [ht.slotOf_eq] at hslot
    cases hslot
    exact hj
  · exact fun hi => ⟨i, ht.slotOf_eq, hi⟩

/-- A generation comes back only after the counter has gone round. -/
theorem Tracked.resolve? (ht : Tracked i r generation h n) (hn : n < 4294967296) :
    h.resolve? ⟨i, generation⟩ = if n = 0 then some r else none := by
  obtain ⟨s, hslot⟩ : ∃ s, h.slots[i]? = some s := ⟨_, Array.getElem?_eq_getElem ht.inside⟩
  have hpos : ¬ ((i : Int) < 0) := by omega
  simp only [Heap.resolve?, hpos, if_false, Int.toNat_natCast, ht.generation_eq]
  by_cases hzero : n = 0
  · subst hzero
    simp [ht.slot_iff.2 rfl]
  · have hne : ¬ (generation + UInt32.ofNat n = generation) := by
      intro heq
      have hof : UInt32.ofNat n = 0 := by simpa using heq
      have := congrArg UInt32.toNat hof
      rw [UInt32.toNat_ofNat_of_lt' (by simpa using hn)] at this
      exact hzero this
    simp [hslot, hzero, hne]

end Parlance.Heap

namespace Parlance

/-- **Handles are never confused.** A registered object has a handle. Whatever is asked of the heap
afterwards, the handle finds the object as long as it is registered. Once the object has left its
slot the handle finds nothing any more, whatever the slot holds; for this the slot has to be left
less often than its counter can count. -/
theorem handle_follows {h : Heap} {r : Ref} (hr : h.Reached) (hl : h.Live r) :
    ∃ (i : Nat) (generation : UInt32), h.handle? r = some ⟨i, generation⟩ ∧
      ∀ {h' : Heap} {n : Nat}, h.Passes i n h' → n < 4294967296 →
      (h'.Live r → h'.resolve? ⟨i, generation⟩ = some r) ∧
        (¬ h'.Live r → ∀ {h'' : Heap} {n' : Nat}, h'.Passes i n' h'' → n + n' < 4294967296 →
          h''.resolve? ⟨i, generation⟩ = none) := by
  obtain ⟨i, generation, hhandle, ht⟩ := hr.orderly.tracked hl
  refine ⟨i, generation, hhandle, fun hp hn => ?_⟩
  have ht' := hp.tracked hr.orderly ht
  rw [ht'.live_iff]
  refine ⟨fun hzero => ?_, fun hleft h'' n' hp' hn' => ?_⟩
  · rw [ht'.resolve? hn, if_pos hzero]
  · have ht'' := (hp.trans hp').tracked hr.orderly ht
    rw [ht''.resolve? hn', if_neg (by omega)]

/-- A native whose slot another one takes after a collection: the handle of the first finds nothing
any more. -/
theorem handle_follows_reused : ∃ (h h' : Heap) (r x : Ref) (old : Handle), h.Reached ∧ h.Live r ∧
    h.handle? r = some old ∧ h'.Live x ∧ h'.slotOf? x = h.slotOf? r ∧ h'.resolve? old = none := by
  have hnative : ∀ s x, Object.native ⟨"f", 0, none⟩ ≠ .text s x := by simp
  -- the heap with the first native, after the collection, and with the second one
  let first := ((Heap.new {}).allocate {} (.native ⟨"f", 0, none⟩)).2
  let swept := first.collect {}
  let second := (swept.allocate {} (.native ⟨"f", 0, none⟩)).2
  have hreached : first.Reached := .step (.new {}) (.move (.allocate {} hnative))
  have hlive : first.Live ⟨0⟩ := ⟨0, by decide +kernel, by decide +kernel⟩
  have hgone : ¬ swept.Live ⟨0⟩ := by
    rintro ⟨i, hslot, hi⟩
    have hzero : swept.slotOf? ⟨0⟩ = some 0 := by decide +kernel
    rw [hzero] at hslot
    cases hslot
    exact absurd hi (by decide +kernel)
  obtain ⟨i, generation, hhandle, hfollows⟩ := handle_follows hreached hlive
  have hi : i = 0 := by
    have heq : first.handle? ⟨0⟩ = some ⟨0, 0⟩ := by decide +kernel
    rw [heq] at hhandle
    cases hhandle
    rfl
  subst hi
  have hpass : first.Passes 0 (0 + Heap.leaving 0 first swept) swept :=
    .step .refl (.move (.collect {}))
  have hpass' : swept.Passes 0 (0 + Heap.leaving 0 swept second) second :=
    .step .refl (.move (.allocate {} hnative))
  exact ⟨first, second, ⟨0⟩, ⟨1⟩, ⟨0, generation⟩, hreached, hlive, hhandle,
    ⟨0, by decide +kernel, by decide +kernel⟩, by decide +kernel,
    (hfollows hpass (by decide +kernel)).2 hgone hpass' (by decide +kernel)⟩

end Parlance
