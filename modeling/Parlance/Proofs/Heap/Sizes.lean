/-
  Objects that are charged with their size.

  * `layouts_settled`, `Settled.buildAll`: laying out a function leaves the heap settled, once it is
    complete, and so does a compilation that leaves no function begun.
-/
import Parlance.Proofs.Compiler.Laws
import Parlance.Proofs.Heap.Histories
import Parlance.Proofs.Heap.Layout

namespace Parlance.Heap

variable {h h' : Heap} {r x : Ref} {o : Object} {begun : List Ref} {roots : Roots}

/-! ## Sizes -/

/-- The bytes that what a slot holds takes up. -/
def sizeIn (h : Heap) : Option Ref → Int
  | some r => ((h.object? r).map fun o => (o.size : Int)).getD 0
  | none => 0

/-- The bytes that the registered objects take up. -/
def sizes (h : Heap) : Int := (h.slots.toList.map h.sizeIn).sum

/-- Registered objects are charged with their size, but for those in `begun`: registered functions
that are not complete. -/
structure Charged (begun : List Ref) (h : Heap) : Prop where
  charge_eq : ∀ {r o}, h.Live r → r ∉ begun → h.object? r = some o → h.charge r = o.size
  live : ∀ {r}, r ∈ begun → h.Live r
  function : ∀ {r}, r ∈ begun → ∃ f, h.object? r = some (.function f)

namespace Charged

theorem sizes_eq (hc : h.Charged []) (hs : h.Slotted) : h.sizes = h.charges := by
  unfold sizes charges
  refine congrArg List.sum (List.map_congr_left fun s hmem => ?_)
  cases s with
  | none => rfl
  | some r =>
    obtain ⟨i, hi⟩ := List.mem_iff_getElem?.1 hmem
    rw [Array.getElem?_toList] at hi
    have hl : h.Live r := ⟨i, hs.slot_eq hi, hi⟩
    obtain ⟨o, ho⟩ := hl.exists_object?
    simp [sizeIn, chargeIn, ho, hc.charge_eq hl List.not_mem_nil ho]

section

variable (hc : h.Charged begun)
include hc

theorem collect (hr : h.Registered) (hroots : ∀ r ∈ begun, r ∈ roots.refs) :
    (h.collect roots).Charged begun := by
  obtain ⟨M, hculled, hM⟩ := hr.culled_collect roots
  have hlive : ∀ {r}, r ∈ begun → (h.collect roots).Live r := fun hmem =>
    (hculled.live_iff _).2 ⟨hc.live hmem, hM _ (hroots _ hmem) (hc.live hmem)⟩
  refine ⟨fun hl hmem ho => ?_, hlive, fun hmem => ?_⟩
  · rw [(hr.balances_collect roots).charge_eq]
    exact hc.charge_eq ((hculled.live_iff _).1 hl).1 hmem (hculled.object_eq _ hl ▸ ho)
  · rw [hculled.object_eq _ (hlive hmem)]
    exact hc.function hmem

theorem register (hr : h.Registered) (o : Object) : (h.register o).2.Charged begun := by
  have hg := hr.register o
  refine ⟨fun {x o'} hl hmem ho => ?_, fun hmem => (hg.live_iff _).2 (Or.inr (hc.live hmem)),
    fun hmem => ?_⟩
  · rw [charge_register]
    rcases (hg.live_iff x).1 hl with rfl | hold
    · rw [hg.object_new] at ho
      cases ho
      rw [if_pos (congrArg Ref.serial hg.ref_eq)]
    · rw [if_neg (Nat.ne_of_lt hold.lt)]
      exact hc.charge_eq hold hmem (hg.object_of_live hold ▸ ho)
  · rw [hg.object_of_live (hc.live hmem)]
    exact hc.function hmem

theorem allocate (ho : h.Orderly) (hroots : ∀ r ∈ begun, r ∈ roots.refs) (o : Object) :
    (h.allocate roots o).2.Charged begun := by
  obtain ⟨g, hg, hcases, heq⟩ := ho.exists_register roots o
  rw [heq]
  refine Charged.register ?_ hg.toRegistered o
  rcases hcases with rfl | rfl
  · exact hc
  · exact hc.collect ho.toRegistered hroots

theorem intern (ho : h.Orderly) (hroots : ∀ r ∈ begun, r ∈ roots.refs) (text : String) :
    (h.intern roots text).2.Charged begun := by
  unfold Heap.intern
  dsimp only
  split
  · exact hc
  · have ha := hc.allocate ho hroots (.text text (hashText text))
    exact ⟨ha.charge_eq, ha.live, ha.function⟩

theorem change {old : Object} (hold : h.object? r = some old) (hsize : o.size = old.size)
    (hmem : r ∉ begun) : (h.setObject r o).Charged begun := by
  have hne : ∀ {x}, x ∈ begun → r ≠ x := by
    rintro x hx rfl
    exact hmem hx
  refine ⟨fun {x o'} hl hx ho => ?_, fun hx => (live_setObject ..).2 (hc.live hx), fun hx => ?_⟩
  · have hl := (live_setObject ..).1 hl
    rw [charge_setObject]
    rw [object?_setObject] at ho
    split at ho
    · rename_i heq
      subst heq
      rw [hold] at ho
      cases ho
      rw [hsize]
      exact hc.charge_eq hl hx hold
    · exact hc.charge_eq hl hx ho
  · rw [object?_setObject_of_ne (hne hx)]
    exact hc.function hx

theorem fill (hmem : r ∈ begun) (f : Function) : (h.setObject r (.function f)).Charged begun := by
  obtain ⟨f0, hf0⟩ := hc.function hmem
  refine ⟨fun {x o'} hl hx ho => ?_, fun hx => (live_setObject ..).2 (hc.live hx), fun {x} hx => ?_⟩
  · have hne : r ≠ x := by
      rintro rfl
      exact hx hmem
    rw [charge_setObject]
    rw [object?_setObject_of_ne hne] at ho
    exact hc.charge_eq ((live_setObject ..).1 hl) hx ho
  · by_cases heq : r = x
    · subst heq
      exact ⟨f, object?_setObject_self hf0 _⟩
    · rw [object?_setObject_of_ne heq]
      exact hc.function hx

end

theorem recharge (hc : h.Charged (r :: begun)) : (h.recharge r).Charged begun := by
  have ha := h.agrees_recharge r
  refine ⟨fun {x o} hl hx ho => ?_, fun hx => ha.live_iff.2 (hc.live (List.mem_cons_of_mem _ hx)),
    fun hx => ?_⟩
  · obtain ⟨cell, hcell, -⟩ := Option.map_eq_some_iff.1 (hc.live List.mem_cons_self).choose_spec.1
    rw [charge_recharge hcell]
    rw [ha.object_eq] at ho
    split
    · rename_i heq
      subst heq
      simp only [object?, hcell, Option.map_some, Option.some.injEq] at ho
      rw [ho]
    · rename_i hne
      refine hc.charge_eq (ha.live_iff.1 hl) (fun hmem => ?_) ho
      rcases List.mem_cons.1 hmem with rfl | hmem
      · exact hne rfl
      · exact hx hmem
  · rw [ha.object_eq]
    exact hc.function (List.mem_cons_of_mem _ hx)

theorem note (hc : h.Charged begun) (message : String) : (h.note message).Charged begun :=
  ⟨hc.charge_eq, hc.live, hc.function⟩

end Charged

/-! ## Histories -/

/-- A heap that was reached in a history without objects charged with other than their size, the
functions `begun` apart. -/
structure Settled (begun : List Ref) (h : Heap) : Prop extends Charged begun h where
  reached : h.Reached

theorem settled_new (settings : HeapSettings) : (new settings).Settled [] where
  reached := .new settings
  charge_eq hl := by
    obtain ⟨i, -, hi⟩ := hl
    simp [new] at hi
  live hr := by cases hr
  function hr := by cases hr

namespace Settled

theorem freeAll (hs : h.Settled begun) : h.freeAll.Settled [] where
  reached := .freeAll hs.reached
  charge_eq hl := by
    obtain ⟨i, -, hi⟩ := hl
    simp [Heap.freeAll] at hi
  live hr := by cases hr
  function hr := by cases hr

theorem bytes_eq (hs : h.Settled []) : h.bytes = h.sizes :=
  hs.reached.orderly.bytes_eq.trans (hs.sizes_eq hs.reached.orderly.toSlotted).symm

/-- What running scripts ask of a heap leaves it settled. -/
theorem move (hs : h.Settled []) (hm : h.Move h') : h'.Settled [] := by
  refine ⟨?_, .step hs.reached (.move hm)⟩
  have ho := hs.reached.orderly
  cases hm with
  | intern roots text => exact hs.toCharged.intern ho (by simp) text
  | allocate roots => exact hs.toCharged.allocate ho (by simp) _
  | change there _ _ size => exact hs.toCharged.change there size (by simp)
  | collect roots => exact hs.toCharged.collect ho.toRegistered (by simp)
  | note message => exact hs.toCharged.note message

theorem moves (hs : h.Settled []) (hm : Relation.ReflTransGen Move h h') : h'.Settled [] := by
  induction hm with
  | refl => exact hs
  | tail _ hm ih => exact ih.move hm

theorem intern (hs : h.Settled begun) (hroots : ∀ r ∈ begun, r ∈ roots.refs) (text : String) :
    (h.intern roots text).2.Settled begun :=
  ⟨hs.toCharged.intern hs.reached.orderly hroots text, .step hs.reached (.move (.intern roots text))⟩

theorem allocate (hs : h.Settled begun) (hroots : ∀ r ∈ begun, r ∈ roots.refs)
    (hnot : ∀ s x, o ≠ .text s x) : (h.allocate roots o).2.Settled begun :=
  ⟨hs.toCharged.allocate hs.reached.orderly hroots o, .step hs.reached (.move (.allocate roots hnot))⟩

theorem allocateFunction (hs : h.Settled begun) (hroots : ∀ r ∈ begun, r ∈ roots.refs) (f : Function) :
    (h.allocate roots (.function f)).2.Settled ((h.allocate roots (.function f)).1 :: begun) := by
  have ha := hs.allocate hroots (o := .function f) (by simp)
  have hnew : (h.allocate roots (.function f)).2.Live (h.allocate roots (.function f)).1 ∧
      (h.allocate roots (.function f)).2.object? (h.allocate roots (.function f)).1 =
      some (.function f) := by
    obtain ⟨g, hg, -, heq⟩ := hs.reached.orderly.exists_register roots (.function f)
    rw [heq]
    exact ⟨((hg.register _).live_iff _).2 (Or.inl rfl), (hg.register _).object_new⟩
  refine ⟨⟨fun hl hmem ho => ha.charge_eq hl (fun h => hmem (List.mem_cons_of_mem _ h)) ho,
    fun hmem => ?_, fun hmem => ?_⟩, ha.reached⟩
  · rcases List.mem_cons.1 hmem with rfl | hmem
    · exact hnew.1
    · exact ha.live hmem
  · rcases List.mem_cons.1 hmem with rfl | hmem
    · exact ⟨f, hnew.2⟩
    · exact ha.function hmem

theorem modifyFunction (hs : h.Settled begun) (hmem : r ∈ begun) (change : Function → Function) :
    (h.modifyFunction r change).Settled begun := by
  obtain ⟨f, hf⟩ := hs.function hmem
  rw [modifyFunction_eq hf]
  exact ⟨hs.toCharged.fill hmem _, .step hs.reached (.fill hf (by simp) (by simp))⟩

theorem recharge (hs : h.Settled (r :: begun)) : (h.recharge r).Settled begun :=
  ⟨hs.toCharged.recharge, .step hs.reached (.recharge (hs.live List.mem_cons_self))⟩

theorem noteListing (hs : h.Settled begun) (r : Ref) : (h.noteListing r).Settled begun := by
  unfold Heap.noteListing
  split
  · exact hs
  · exact ⟨hs.toCharged.note _, .step hs.reached (.move (.note _))⟩

end Settled

/-! ## Functions -/

theorem layouts_settled (F : Object → Prop) (R : Unit → List Ref) :
    Layouts F R fun begun _ h => (h ()).Settled (begun.map (·.ref ())) where
  plain hs _ _ := hs
  intern hs hroots s := hs.intern (Covers.mem (hroots ())) s
  native hs hroots _ _ := hs.allocate (Covers.mem (hroots ())) (by simp)
  function hs hroots := hs.allocateFunction (Covers.mem (hroots ())) {}
  name hs := hs.modifyFunction List.mem_cons_self _
  start _ _ hs _ := hs.modifyFunction List.mem_cons_self _
  header _ hs := hs.modifyFunction List.mem_cons_self _
  constant hs := hs.modifyFunction List.mem_cons_self _
  recharge hs := hs.recharge
  note r hs := hs.noteListing (r ())
  drop hs := hs

theorem Settled.layOut (hs : h.Settled []) (roots : Roots) (p : Proto) :
    (h.layOut true roots p).2.Settled [] := by
  have hp : p.Admitted fun _ => True := p.admitted_of_native fun _ => trivial
  exact (layouts_settled _ fun _ => roots.refs).script (h := fun _ => h) hs hp

theorem Settled.buildAll (hs : h.Settled []) (roots : Roots) (print : Bool) {builds : List Build}
    {F : Object → Prop}
    (hbuilds : ∀ t ∈ builds, t.Admitted F) (hbalanced : builds.foldl Build.depth 0 = 0) :
    (h.buildAll roots print builds).heap.Settled [] := by
  obtain ⟨g, ⟨begun, hand, h', fin, hb, hbegun, hdone, -⟩, hlength⟩ :=
    (layouts_settled F fun _ => (withPending roots []).refs).steps_single print hbuilds
      (Layouts.planned_start (h := fun _ => h) hs)
  obtain rfl : begun = [] := by
    rw [← hbegun, List.length_map] at hlength
    exact List.eq_nil_of_length_eq_zero (hlength.trans hbalanced)
  rw [Heap.buildAll, congrFun hb ()]
  exact hdone

end Parlance.Heap
