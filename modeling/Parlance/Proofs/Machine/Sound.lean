/-
  Machines whose parts fit together.

  Soundness holds in the middle of instructions too. What an instruction does is a row of the moves
  here.
-/
import Parlance.Machine
import Parlance.Proofs.Heap.Layout

namespace Parlance

/-! ## Stacks -/

namespace Stack

variable {s : Stack} {v : Value} {i n : Nat}

theorem length_toList (hs : s.depth ≤ s.cells.size) : s.toList.length = s.depth := by
  simp [toList, Nat.min_eq_left hs]

theorem getElem?_toList (s : Stack) (i : Nat) : s.toList[i]? = s.get? i := by
  simp [toList, get?, List.getElem?_take]

theorem toList_push (hs : s.depth ≤ s.cells.size) (v : Value) :
    (s.push v).toList = s.toList ++ [v] := by
  unfold push
  split
  · rename_i hlt
    refine List.ext_getElem? fun i => ?_
    have hlen := length_toList hs
    rw [getElem?_toList, get?, List.getElem?_append, hlen, getElem?_toList, get?]
    simp only [Array.getElem?_setIfInBounds, hlt, if_true]
    by_cases hi : i < s.depth
    · simp [hi, Nat.ne_of_gt hi, Nat.lt_succ_of_lt hi]
    · by_cases heq : s.depth = i
      · simp [← heq]
      · have hgt : ¬ i < s.depth + 1 := by omega
        have hpos : i - s.depth ≠ 0 := by omega
        simp [hi, hgt, hpos]
  · rename_i hge
    have heq : s.depth = s.cells.size := by omega
    have hall : s.cells.toList.take s.cells.size = s.cells.toList := by
      rw [← Array.length_toList, List.take_length]
    have hpushed : (s.cells.toList ++ [v]).take (s.cells.size + 1) = s.cells.toList ++ [v] :=
      List.take_of_length_le (by simp)
    simp only [toList, heq, Array.toList_push, hall, hpushed]

theorem depth_push (s : Stack) (v : Value) : (s.push v).depth = s.depth + 1 := by
  unfold push
  split <;> rfl

theorem push_le (hs : s.depth ≤ s.cells.size) (v : Value) :
    (s.push v).depth ≤ (s.push v).cells.size := by
  unfold push
  split
  · simp only [Array.size_setIfInBounds]
    omega
  · simp only [Array.size_push]
    omega

theorem toList_cutTo (hn : n ≤ s.depth) : (s.cutTo n).toList = s.toList.take n := by
  simp [toList, cutTo, List.take_take, Nat.min_eq_left hn]

theorem toList_put (s : Stack) (i : Nat) (v : Value) : (s.put i v).toList = s.toList.set i v := by
  simp [toList, put, List.take_set]

theorem get?_of_lt (hs : s.depth ≤ s.cells.size) (hi : i < s.depth) : ∃ v, s.get? i = some v :=
  ⟨s.cells[i], by simp [get?, hi, Array.getElem?_eq_getElem (Nat.lt_of_lt_of_le hi hs)]⟩

theorem lt_of_get? (hv : s.get? i = some v) : i < s.depth := by
  unfold get? at hv
  split at hv
  · assumption
  · cases hv

theorem mem_of_get? (hv : s.get? i = some v) : v ∈ s.toList := by
  rw [← getElem?_toList] at hv
  exact List.mem_of_getElem? hv

theorem pop?_eq (hs : s.depth ≤ s.cells.size) (hd : s.depth = n + 1) :
    ∃ v, s.get? n = some v ∧ s.pop? = some (v, s.cutTo n) := by
  obtain ⟨v, hv⟩ := get?_of_lt hs (i := n) (by omega)
  refine ⟨v, hv, ?_⟩
  have hcell : s.cells[n]? = some v := by
    unfold get? at hv
    rwa [if_pos (by omega)] at hv
  obtain ⟨cells, depth⟩ := s
  obtain rfl : depth = n + 1 := hd
  simp only at hcell
  simp [pop?, hcell, cutTo]

theorem peek?_eq (hn : n < s.depth) : s.peek? n = s.get? (s.depth - 1 - n) := by
  have hpos : (0 : Int) ≤ (s.depth : Int) - 1 - n := by omega
  have heq : ((s.depth : Int) - 1 - n).toNat = s.depth - 1 - n := by omega
  simp only [peek?, if_pos hpos, heq]

theorem top?_eq (hn : n ≤ s.depth) : s.top? n = some (s.toList.drop (s.depth - n)) := by
  simp [top?, hn, toList, List.drop_take]

theorem mem_of_top? {vs : List Value} (hvs : s.top? n = some vs) (hv : v ∈ vs) : v ∈ s.toList := by
  by_cases hn : n ≤ s.depth
  · rw [top?_eq hn] at hvs
    cases hvs
    exact List.mem_of_mem_drop hv
  · simp [top?, hn] at hvs

end Stack

/-! ## Captured variables -/

/-- The value is no object, or one that is registered. -/
def Heap.LiveValue (h : Heap) : Value → Prop
  | .object r => h.Live r
  | _ => True

namespace Heap

variable {u : Upvalue} {roots : List Ref} {h h' : Heap} {us : List Ref} {r x : Ref}

theorem LiveValue.of_live {v : Value} (hv : ∀ r, v = .object r → h.Live r) : h.LiveValue v := by
  cases v with
  | object r => exact hv r rfl
  | _ => trivial

theorem LiveValue.mono {v : Value} (hv : h.LiveValue v) (hl : ∀ {r}, h.Live r → h'.Live r) :
    h'.LiveValue v := by
  cases v with
  | object r => exact hl hv
  | _ => trivial

theorem mem_children_closed : x ∈ (Object.upvalue u).children ↔ u.closed = .object x := by
  cases hu : u.closed <;> simp [Object.children, Object.children.values, hu, eq_comm]

/-- The slot of a captured variable. -/
def slotAt (h : Heap) (r : Ref) : Nat :=
  match h.object? r with
  | some (.upvalue u) => u.slot
  | _ => 0

theorem slotAt_eq (hr : h.object? r = some (.upvalue u)) : h.slotAt r = u.slot := by
  simp [slotAt, hr]

/-- The open variables, by falling slots. -/
structure Opens (h : Heap) (us : List Ref) : Prop where
  upvalue : ∀ {r}, r ∈ us → h.Live r ∧ ∃ u, h.object? r = some (.upvalue u) ∧ u.isOpen = true
  sorted : us.Pairwise fun a b => h.slotAt b < h.slotAt a
  all : ∀ {r u}, h.Live r → h.object? r = some (.upvalue u) → u.isOpen = true → r ∈ us

theorem Opens.eq_of_slotAt (ho : h.Opens us) (hr : r ∈ us) (hx : x ∈ us)
    (heq : h.slotAt r = h.slotAt x) : r = x := by
  obtain ⟨i, hi, rfl⟩ := List.getElem_of_mem hr
  obtain ⟨j, hj, rfl⟩ := List.getElem_of_mem hx
  have hsorted := List.pairwise_iff_getElem.1 ho.sorted
  rcases Nat.lt_trichotomy i j with hlt | rfl | hlt
  · have := hsorted i j hi hj hlt
    omega
  · rfl
  · have := hsorted j i hj hi hlt
    omega

theorem Opens.lt_of_head {last : Nat} (ho : h.Opens (r :: us)) (hr : h.slotAt r < last)
    (hx : x ∈ r :: us) : h.slotAt x < last := by
  rcases List.mem_cons.1 hx with rfl | hx
  · exact hr
  · exact Nat.lt_trans ((List.pairwise_cons.1 ho.sorted).1 x hx) hr

theorem Opens.not_mem (ho : h.Opens us) (hu : h.object? r = some (.upvalue u))
    (hclosed : u.isOpen = false) : r ∉ us := by
  intro hr
  obtain ⟨-, u', hu', hopen⟩ := ho.upvalue hr
  rw [hu] at hu'
  cases hu'
  rw [hclosed] at hopen
  cases hopen

/-- No open variable is new. -/
def AddsNoOpen (h h' : Heap) : Prop :=
  ∀ {x u}, h'.Live x → h.cells.size ≤ x.serial → h'.object? x = some (.upvalue u) → u.isOpen = false

theorem Adds.addsNoOpen {F : Object → Prop} (ha : Adds F h h') (hF : ∀ o, F o → o.Fixed) :
    AddsNoOpen h h' := by
  intro x u hl hge ho
  exact (hF _ (ha hl hge ho)).elim

theorem Allocated.addsNoOpen {o : Object} (ha : h.Allocated roots o r h')
    (ho : ∀ u, o = .upvalue u → u.isOpen = false) : AddsNoOpen h h' := fun hl hge hx =>
  ha.adds (F := fun o => ∀ u, o = .upvalue u → u.isOpen = false) ho hl hge hx _ rfl

theorem InternedAs.addsNoOpen {text : String} {key : Symbol}
    (hi : h.InternedAs roots text key h') : AddsNoOpen h h' :=
  Adds.addsNoOpen (F := Object.Plain) (hi.adds fun _ ho => ho) fun _ ho => ho.fixed

theorem slotAt_congr (heq : h'.object? r = h.object? r) : h'.slotAt r = h.slotAt r := by
  simp [slotAt, heq]

theorem Opens.congr {us' : List Ref} (ho : h.Opens us) (hsub : us'.Sublist us)
    (hlive : ∀ r ∈ us', h'.Live r) (heq : ∀ r ∈ us', h'.object? r = h.object? r)
    (hall : ∀ {r u}, h'.Live r → h'.object? r = some (.upvalue u) → u.isOpen = true → r ∈ us') :
    h'.Opens us' where
  upvalue hr := ⟨hlive _ hr, by rw [heq _ hr]; exact (ho.upvalue (hsub.subset hr)).2⟩
  sorted := by
    refine (ho.sorted.sublist hsub).imp_of_mem fun {a b} ha hb hab => ?_
    rw [slotAt_congr (heq a ha), slotAt_congr (heq b hb)]
    exact hab
  all := hall

theorem Opens.evolves (ho : h.Opens us) (he : h.Evolves roots h') (hsub : ∀ r ∈ us, r ∈ roots)
    (hnew : AddsNoOpen h h') : h'.Opens us := by
  have hlive : ∀ r ∈ us, h'.Live r := fun r hr => he.live_of_mem (hsub r hr)
  refine ho.congr (.refl us) hlive (fun r hr => he.object_eq (ho.upvalue hr).1 (hlive r hr)) ?_
  intro r u hl hr hopen
  by_cases hlt : r.serial < h.cells.size
  · obtain ⟨hl', heq⟩ := he.old hl hlt
    exact ho.all hl' (heq ▸ hr) hopen
  · rw [hnew hl (Nat.not_lt.1 hlt) hr] at hopen
    cases hopen

/-- An object that is not open any more, or never was, leaves the others open. -/
theorem Opens.without {us' : List Ref} (ho : h.Opens us) {o : Object} (hsub : us'.Sublist us)
    (hr : r ∉ us')
    (hkept : ∀ x ∈ us, x ≠ r → x ∈ us') (hnew : ∀ u, o = .upvalue u → u.isOpen = false) :
    (h.setObject r o).Opens us' := by
  refine ho.congr hsub (fun x hx => (live_setObject ..).2 (ho.upvalue (hsub.subset hx)).1)
    (fun x hx => ?_) ?_
  · refine object?_setObject_of_ne ?_ o
    rintro rfl
    exact hr hx
  · intro x u hl hx hopen
    rw [live_setObject] at hl
    rw [object?_setObject] at hx
    split at hx
    · obtain ⟨_, -, rfl⟩ := Option.map_eq_some_iff.1 hx
      rw [hnew u rfl] at hopen
      cases hopen
    · rename_i hne
      exact hkept x (ho.all hl hx hopen) (Ne.symm hne)

theorem Opens.setObject (ho : h.Opens us) {o : Object} (hr : r ∉ us)
    (hnew : ∀ u, o = .upvalue u → u.isOpen = false) : (h.setObject r o).Opens us :=
  ho.without (.refl us) hr (fun _ hx _ => hx) hnew

theorem Opens.close (ho : h.Opens (r :: us)) (hu : u.isOpen = false) :
    (h.setObject r (.upvalue u)).Opens us := by
  refine ho.without (List.sublist_cons_self r us) (fun hr => ?_)
    (fun x hx hne => (List.mem_cons.1 hx).resolve_left hne) ?_
  · exact Nat.lt_irrefl _ ((List.pairwise_cons.1 ho.sorted).1 r hr)
  · rintro _ ⟨⟩
    exact hu

theorem Opens.insert {above others roots : List Ref} (ho : h.Opens (above ++ others))
    (ha : h.Allocated roots (.upvalue u) r h') (hsub : ∀ x ∈ above ++ others, x ∈ roots)
    (hopen : u.isOpen = true)
    (habove : ∀ x ∈ above, u.slot < h.slotAt x) (hothers : ∀ x ∈ others, h.slotAt x < u.slot) :
    h'.Opens (above ++ r :: others) := by
  have hlive : ∀ x ∈ above ++ others, h'.Live x := fun x hx => ha.live_of_mem (hsub x hx)
  have hsame : ∀ x ∈ above ++ others, h'.object? x = h.object? x := fun x hx =>
    ha.object_eq (ho.upvalue hx).1 (hlive x hx)
  have hslot : ∀ x ∈ above ++ others, h'.slotAt x = h.slotAt x := fun x hx => slotAt_congr (hsame x hx)
  have hnew : h'.slotAt r = u.slot := slotAt_eq ha.object_new
  have hmem : ∀ {x}, x ∈ above ++ r :: others ↔ x = r ∨ x ∈ above ++ others := by
    intro x
    simp only [List.mem_append, List.mem_cons]
    exact or_left_comm
  refine ⟨?_, ?_, ?_⟩
  · intro x hx
    rcases hmem.1 hx with rfl | hx
    · exact ⟨ha.live_new, u, ha.object_new, hopen⟩
    · refine ⟨hlive x hx, ?_⟩
      rw [hsame x hx]
      exact (ho.upvalue hx).2
  · have hsorted : (above ++ others).Pairwise fun a b => h'.slotAt b < h'.slotAt a := by
      refine ho.sorted.imp_of_mem fun {a b} hx hy hab => ?_
      rw [hslot a hx, hslot b hy]
      exact hab
    obtain ⟨h1, h2, h3⟩ := List.pairwise_append.1 hsorted
    refine List.pairwise_append.2 ⟨h1, List.pairwise_cons.2 ⟨fun x hx => ?_, h2⟩, fun x hx y hy => ?_⟩
    · rw [hnew, hslot x (List.mem_append_right _ hx)]
      exact hothers x hx
    · rcases List.mem_cons.1 hy with rfl | hy
      · rw [hnew, hslot x (List.mem_append_left _ hx)]
        exact habove x hx
      · exact h3 x hx y hy
  · intro x v hl hx hv
    rcases ha.live_old hl with rfl | hl0
    · exact hmem.2 (Or.inl rfl)
    · exact hmem.2 (Or.inr (ho.all hl0 ((ha.object_eq hl0 hl).symm.trans hx) hv))

end Heap

/-! ## Machines -/

namespace Machine

variable {r : Ref} {us : List Ref} {k : Symbol} {v : Value} {h' : Heap}

/-- All that the machine refers to is there. -/
structure Sound (m : Machine) : Prop where
  heap : m.heap.Sound
  depth_le : m.stack.depth ≤ m.stack.cells.size
  stack : ∀ {v}, v ∈ m.stack.toList → m.heap.LiveValue v
  frames : ∀ {f}, f ∈ m.frames → m.heap.Live f.closure
  opens : m.heap.Opens m.openUpvalues
  table : m.globals.Valid
  globals : ∀ {k v}, m.globals.Holds k v →
    m.heap.Live k.ref ∧ m.heap.object? k.ref = some (.text k.text k.hash) ∧ m.heap.LiveValue v

theorem mem_objectsOf {vs : List Value} : r ∈ objectsOf vs ↔ Value.object r ∈ vs := by
  simp only [objectsOf, List.mem_filterMap]
  constructor
  · rintro ⟨v, hv, heq⟩
    cases v with
    | object x =>
      cases heq
      exact hv
    | _ => cases heq
  · exact fun hr => ⟨_, hr, rfl⟩

theorem mem_refs {m : Machine} : r ∈ m.roots.refs ↔ Value.object r ∈ m.stack.toList ∨
    (∃ f ∈ m.frames, f.closure = r) ∨ r ∈ m.openUpvalues ∨
    ∃ k v, m.globals.Holds k v ∧ (r = k.ref ∨ v = .object r) := by
  simp only [Roots.refs, roots, List.append_nil, List.mem_append, mem_objectsOf, List.mem_map,
    Array.mem_toList_iff, List.mem_flatMap, Table.mem_entriesList, List.mem_cons, Prod.exists]
  simp only [or_assoc]
  refine or_congr Iff.rfl
    (or_congr Iff.rfl (or_congr Iff.rfl (exists_congr fun k => exists_congr fun v => ?_)))
  simp only [List.not_mem_nil, or_false, @eq_comm _ v]

namespace Sound

variable {m : Machine} (hm : m.Sound)
include hm

theorem roots (hr : r ∈ m.roots.refs) : m.heap.Live r := by
  rcases mem_refs.1 hr with hr | ⟨f, hf, rfl⟩ | hr | ⟨k, v, hk, rfl | rfl⟩
  · exact hm.stack hr
  · exact hm.frames hf
  · exact (hm.opens.upvalue hr).1
  · exact (hm.globals hk).1
  · exact (hm.globals hk).2.2

theorem interned (text : String) :
    m.heap.InternedAs m.roots.refs text (m.heap.intern m.roots text).1
    (m.heap.intern m.roots text).2 :=
  hm.heap.intern (fun _ hx => hm.roots hx) text

theorem allocated {o : Object} (hnot : ∀ s x, o ≠ .text s x)
    (hc : ∀ c ∈ o.children, m.heap.Reach m.roots.refs c) :
    m.heap.Allocated m.roots.refs o (m.heap.allocate m.roots o).1 (m.heap.allocate m.roots o).2 :=
  hm.heap.allocate (fun _ hx => hm.roots hx) hnot hc

theorem length_stack : m.stack.toList.length = m.stack.depth := Stack.length_toList hm.depth_le

/-! ### The stack and the calls -/

theorem push {v : Value} (hv : m.heap.LiveValue v) : Sound { m with stack := m.stack.push v } :=
  { hm with
    depth_le := Stack.push_le hm.depth_le v
    stack := by
      intro w hw
      rw [Stack.toList_push hm.depth_le, List.mem_append, List.mem_singleton] at hw
      rcases hw with hw | rfl
      · exact hm.stack hw
      · exact hv }

theorem cutTo {n : Nat} (hn : n ≤ m.stack.depth) : Sound { m with stack := m.stack.cutTo n } :=
  { hm with
    depth_le := Nat.le_trans hn hm.depth_le
    stack := by
      intro w hw
      rw [Stack.toList_cutTo hn] at hw
      exact hm.stack (List.mem_of_mem_take hw) }

theorem put (i : Nat) (hv : m.heap.LiveValue v) :
    Sound { m with stack := m.stack.put i v } :=
  { hm with
    depth_le := by simpa [Stack.put] using hm.depth_le
    stack := by
      intro w hw
      rw [Stack.toList_put] at hw
      rcases List.mem_or_eq_of_mem_set hw with hw | rfl
      · exact hm.stack hw
      · exact hv }

theorem withFrames {fs : Array Frame} (hfs : ∀ f ∈ fs, m.heap.Live f.closure) :
    Sound { m with frames := fs } :=
  { hm with frames := fun hf => hfs _ hf }

/-! ### The heap -/

theorem evolvesTo (he : m.heap.Evolves m.roots.refs h') (ho : h'.Opens us) :
    Sound { m with heap := h', openUpvalues := us } where
  heap := he.sound
  depth_le := hm.depth_le
  stack hv := .of_live fun r hr => he.live_of_mem (mem_refs.2 (Or.inl (hr ▸ hv)))
  frames hf := he.live_of_mem (mem_refs.2 (Or.inr (Or.inl ⟨_, hf, rfl⟩)))
  opens := ho
  table := hm.table
  globals := by
    intro k v hk
    have hk' : m.globals.Holds k v := hk
    have hlive : h'.Live k.ref :=
      he.live_of_mem (mem_refs.2 (Or.inr (Or.inr (Or.inr ⟨k, v, hk', Or.inl rfl⟩))))
    obtain ⟨hl, ho, -⟩ := hm.globals hk'
    exact ⟨hlive, (he.object_eq hl hlive).trans ho, .of_live fun r hr =>
      he.live_of_mem (mem_refs.2 (Or.inr (Or.inr (Or.inr ⟨k, v, hk', Or.inr hr⟩))))⟩

theorem evolves (he : m.heap.Evolves m.roots.refs h') (hnew : m.heap.AddsNoOpen h') :
    Sound { m with heap := h' } :=
  hm.evolvesTo he (hm.opens.evolves he (fun _ hr => mem_refs.2 (Or.inr (Or.inr (Or.inl hr)))) hnew)

theorem slotAt_evolves (he : m.heap.Evolves m.roots.refs h') (hr : r ∈ m.openUpvalues) :
    h'.slotAt r = m.heap.slotAt r :=
  Heap.slotAt_congr
    (he.object_eq (hm.opens.upvalue hr).1
    (he.live_of_mem (mem_refs.2 (Or.inr (Or.inr (Or.inl hr))))))

theorem setObject {old o : Object} (hold : m.heap.object? r = some old) (hnot : ∀ s x, old ≠ .text s x)
    (hnot' : ∀ s x, o ≠ .text s x) (hc : ∀ c ∈ o.children, m.heap.Live c)
    (ho : (m.heap.setObject r o).Opens us) :
    Sound { m with heap := m.heap.setObject r o, openUpvalues := us } where
  heap := hm.heap.setObject hold hnot hnot' hc
  depth_le := hm.depth_le
  stack hv := (hm.stack hv).mono (Heap.live_setObject ..).2
  frames hf := (Heap.live_setObject ..).2 (hm.frames hf)
  opens := ho
  table := hm.table
  globals := by
    intro k v hk
    obtain ⟨hl, hkey, hv⟩ := hm.globals hk
    refine ⟨(Heap.live_setObject ..).2 hl, (Heap.object?_setObject_of_ne ?_ o).trans hkey,
      hv.mono (Heap.live_setObject ..).2⟩
    rintro rfl
    rw [hold] at hkey
    exact hnot _ _ (Option.some.inj hkey)

theorem setUpvalue {u y : Upvalue} (hu : m.heap.object? r = some (.upvalue u))
    (hy : m.heap.LiveValue y.closed) (ho : (m.heap.setObject r (.upvalue y)).Opens us) :
    Sound { m with heap := m.heap.setObject r (.upvalue y), openUpvalues := us } := by
  refine hm.setObject hu (by simp) (by simp) (fun x hx => ?_) ho
  rw [Heap.mem_children_closed.1 hx] at hy
  exact hy

/-- A variable that is closed takes a value. -/
theorem setClosed {u : Upvalue} (hu : m.heap.object? r = some (.upvalue u))
    (hclosed : u.isOpen = false)
    (hv : m.heap.LiveValue v) :
    Sound { m with heap := m.heap.setObject r (.upvalue { u with closed := v }) } :=
  hm.setUpvalue (y := { u with closed := v }) hu hv
    (hm.opens.setObject (hm.opens.not_mem hu hclosed) (by simp [hclosed]))

theorem setClosure {x : Ref} {f : Option Ref} {us : Array (Option Ref)}
    (hl : m.heap.Live x) (hx : m.heap.object? x = some (.closure f us)) (i : Nat) {o : Option Ref}
    (ho : ∀ r ∈ o, m.heap.Live r) :
    Sound { m with heap := m.heap.setObject x (.closure f (us.setIfInBounds i o)) } := by
  refine hm.setObject hx (by simp) (by simp) ?_ (hm.opens.setObject ?_ (by simp))
  · intro r hr
    simp only [Object.children, List.mem_append, Array.toList_setIfInBounds, List.mem_filterMap] at hr
    rcases hr with hr | ⟨z, hz, rfl⟩
    · exact hm.heap.closed hl hx r (List.mem_append.2 (Or.inl hr))
    · rcases List.mem_or_eq_of_mem_set hz with hz | rfl
      · exact hm.heap.closed hl hx r (List.mem_append.2 (Or.inr (List.mem_filterMap.2 ⟨_, hz, rfl⟩)))
      · exact ho r rfl
  · intro hmem
    obtain ⟨-, u, hu, -⟩ := hm.opens.upvalue hmem
    rw [hx] at hu
    cases hu

/-! ### The globals -/

theorem knows (hk : m.heap.object? k.ref = some (.text k.text k.hash)) : m.globals.Knows k := by
  intro k' v hk' href
  obtain ⟨-, ho, -⟩ := hm.globals hk'
  obtain ⟨ref, text, hash⟩ := k
  obtain ⟨ref', text', hash'⟩ := k'
  simp only at href ho hk
  subst href
  rw [hk] at ho
  cases ho
  rfl

theorem setGlobal (hl : m.heap.Live k.ref)
    (hk : m.heap.object? k.ref = some (.text k.text k.hash)) (hv : m.heap.LiveValue v) :
    Sound { m with globals := (m.globals.set k v).2 } := by
  obtain ⟨hvalid, hholds, -⟩ := hm.table.set_spec (hm.knows hk) v
  exact { hm with
    table := hvalid
    globals := by
      intro k' v' hk'
      rcases hholds.1 hk' with ⟨rfl, rfl⟩ | ⟨-, hk'⟩
      · exact ⟨hl, hk, hv⟩
      · exact hm.globals hk' }

theorem eraseGlobal (hk : m.heap.object? k.ref = some (.text k.text k.hash)) :
    Sound { m with globals := (m.globals.erase k).2 } := by
  obtain ⟨hvalid, hholds, -⟩ := hm.table.erase_spec (hm.knows hk)
  exact { hm with
    table := hvalid
    globals := fun hk' => hm.globals (hholds.1 hk').2 }

end Sound

theorem sound_new (settings : Settings) : (new settings).Sound where
  heap := Heap.sound_new _
  depth_le := Nat.le_refl _
  stack hv := by simp [new, Stack.toList] at hv
  frames hf := by simp [new] at hf
  opens := ⟨by simp [new], List.Pairwise.nil, fun hl => by
    obtain ⟨i, hi, -⟩ := hl
    simp [new, Heap.new, Heap.slotOf?] at hi⟩
  table := Table.valid_empty
  globals hk := by
    obtain ⟨i, hi⟩ := hk
    simp [new, Table.LiveAt] at hi

end Machine

end Parlance
