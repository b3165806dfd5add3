/-
  The moves of the machine while vetted code runs.
-/
import Parlance.Proofs.Machine.Vetting

namespace Parlance

variable {busy : Ref → Prop} {r : Ref}

open Heap (idle)

/-- How a computation on vetted code may end early: a failure leaves the machine ready, and there is
a fault only where charts do not keep track of captured variables. -/
def Machine.Ends (V : Vetting) (m : Machine) : Halt → Prop
  | .failed e => m.Ready V ∧ ∀ f, e.failure ≠ .fault f
  | .fault _ => ¬ V.strict ∧ m.Sound ∧ m.heap.Vetted V idle

namespace Exec

variable {v : Value} {n : Nat} {i : Nat} {α β : Type} {V : Vetting} {m m' : Machine} {x : Exec α}
  {g : α → Exec β} {a : α} {p : Proto} {f : Frame} {below : Array Frame}

/-! ## Computations -/

theorem run_bind (hx : x m = .ok a m') : (x >>= g) m = g a m' := by
  show EStateM.bind x g m = g a m'
  rw [EStateM.bind, hx]

/-- The computation comes to `Q`, or ends early as it may. -/
def Meets (V : Vetting) (x : Exec α) (m : Machine) (Q : α → Machine → Prop) : Prop :=
  match x m with
  | .ok a m' => Q a m'
  | .error e m' => m'.Ends V e

namespace Meets

variable {Q Q' : α → Machine → Prop} {R : β → Machine → Prop}

theorem of_ok (hx : x m = .ok a m') (hQ : Q a m') : Meets V x m Q := by
  unfold Meets
  rw [hx]
  exact hQ

theorem pure (hQ : Q a m) : Meets V (pure a : Exec α) m Q := hQ

theorem bind (hx : Meets V x m Q) (hg : ∀ a m', Q a m' → Meets V (g a) m' R) :
    Meets V (x >>= g) m R := by
  have heq : (x >>= g) m = EStateM.bind x g m := rfl
  unfold Meets at hx ⊢
  rw [heq, EStateM.bind]
  cases hxm : x m with
  | ok a m' =>
    rw [hxm] at hx
    exact hg a m' hx
  | error e m' =>
    rw [hxm] at hx
    exact hx

theorem bind_ok (hx : x m = .ok a m') (hg : Meets V (g a) m' R) : Meets V (x >>= g) m R := by
  unfold Meets
  rw [run_bind hx]
  exact hg

theorem bind_need {o : Option α} (ho : o = some a) (hg : Meets V (g a) m R) :
    Meets V (Exec.need o >>= g) m R := by
  subst ho
  exact bind_ok rfl hg

theorem of_run (hx : Meets V x m Q) (h : x m = .ok a m') : Q a m' := by
  unfold Meets at hx
  rwa [h] at hx

theorem mono (hx : Meets V x m Q) (hQ : ∀ a m', Q a m' → Q' a m') : Meets V x m Q' := by
  unfold Meets at hx ⊢
  cases hxm : x m with
  | ok a m' =>
    rw [hxm] at hx
    exact hQ a m' hx
  | error e m' =>
    rw [hxm] at hx
    exact hx

theorem fault (hnot : ¬ V.strict) (hs : m.Sound) (hv : m.heap.Vetted V busy) :
    Meets V (fault : Exec α) m Q :=
  ⟨hnot, hs, hv.of_not_strict hnot⟩

theorem need {o : Option α} (hs : m.Sound) (hv : m.heap.Vetted V busy)
    (hsome : V.strict → o ≠ none) (hQ : ∀ a, o = some a → Q a m) : Meets V (need o) m Q := by
  cases o with
  | some a => exact hQ a rfl
  | none => exact fault (fun hstrict => hsome hstrict rfl) hs hv

end Meets

/-! ## Code -/

theorem frame_eq (hf : m.frames = below.push f) : frame m = .ok f m := by
  have hback : m.frames.back? = some f := by rw [hf, Array.back?_push]
  have heq : frame m = Exec.need m.frames.back? m := rfl
  rw [heq, hback]
  rfl

theorem jumpTo_eq (hf : m.frames = below.push f) (ip : Nat) :
    jumpTo ip m = .ok ⟨⟩ { m with frames := below.push { f with ip } } := by
  have heq : m.frames.modify (m.frames.size - 1) (fun f => { f with ip }) =
      below.push { f with ip } := by
    rw [hf]
    refine Array.ext_getElem? fun i => ?_
    simp only [Array.getElem?_modify, Array.size_push, Nat.add_sub_cancel, Array.getElem?_push]
    by_cases hi : i = below.size
    · simp [hi]
    · simp [hi, Ne.symm hi]
  have hdef : jumpTo ip m = .ok ⟨⟩ { m with
    frames := m.frames.modify (m.frames.size - 1) fun f => { f with ip } } := rfl
  rw [hdef, heq]

theorem exists_functionOf (hr : m.heap.Runs f.closure p) : ∃ F r, functionOf f m = .ok F m ∧
    m.heap.object? r = some (.function F) ∧ F.chunk.code = p.code ∧ F.chunk.lines = p.lines ∧
    m.heap.PoolIs r.serial p.constants F.chunk.constants ∧ m.heap.Reach [f.closure] r := by
  obtain ⟨r, us, ho, -, hlaid⟩ := hr
  obtain ⟨F, hF, -, -, -, hcode, hlines, hpool⟩ := Heap.laidOut_iff.1 hlaid
  have heq : functionOf f m = .ok F m := by
    refine (run_bind (x := get) rfl).trans ?_
    rw [ho]
    simp only [Heap.function?_of_object? hF]
    rfl
  exact ⟨F, r, heq, hF, hcode, hlines, hpool, .step (.root List.mem_cons_self) ho
    (List.mem_append.2 (Or.inl (by simp)))⟩

section

variable (hf : m.frames = below.push f) (hr : m.heap.Runs f.closure p)
include hf hr

theorem readByte_eq {b : UInt8} (hb : p.code[f.ip]? = some b) :
    readByte m = .ok b { m with frames := below.push { f with ip := f.ip + 1 } } := by
  obtain ⟨F, r, hF, -, hcode, -⟩ := exists_functionOf hr
  have hdef : readByte m =
    (frame >>= fun f => functionOf f >>= fun F => Exec.need F.chunk.code[f.ip]? >>= fun b =>
    jumpTo (f.ip + 1) >>= fun _ => pure b) m := rfl
  rw [hdef]
  simp only [bind, EStateM.bind, frame_eq hf, hF, hcode, hb, Exec.need, pure, EStateM.pure,
    jumpTo_eq hf]

theorem readShort_eq
    (hn : p.chunk.short? f.ip = some n) :
    readShort m = .ok n { m with frames := below.push { f with ip := f.ip + 2 } } := by
  obtain ⟨F, r, hF, -, hcode, -⟩ := exists_functionOf hr
  have hshort : F.chunk.short? f.ip = some n := by
    rw [← hn]
    simp only [Chunk.short?, hcode, Proto.chunk]
  have hdef : readShort m =
    (frame >>= fun f => functionOf f >>= fun F => Exec.need (F.chunk.short? f.ip) >>= fun n =>
    jumpTo (f.ip + 2) >>= fun _ => pure n) m := rfl
  rw [hdef]
  simp only [bind, EStateM.bind, frame_eq hf, hF, hshort, Exec.need, pure, EStateM.pure, jumpTo_eq hf]

theorem exists_readConstant {b : UInt8} {k : Constant}
    (hb : p.code[f.ip]? = some b) (hk : p.constants[b.toNat]? = some k) : ∃ v low,
      readConstant m = .ok v { m with frames := below.push { f with ip := f.ip + 1 } } ∧
      m.heap.ConstantIs low k v ∧ ∀ y, v = .object y → m.heap.Reach [f.closure] y := by
  obtain ⟨F, r, hF, hobj, hcode, -, hpool, hreach⟩ := exists_functionOf hr
  have hlt : b.toNat < F.chunk.constants.size := by
    rw [hpool.size_eq]
    exact (List.getElem?_eq_some_iff.1 hk).1
  have hv : F.chunk.constants[b.toNat]? = some F.chunk.constants[b.toNat] :=
    Array.getElem?_eq_getElem hlt
  refine ⟨F.chunk.constants[b.toNat], r.serial, ?_, hpool.constant hk hv, fun y hy => ?_⟩
  · have hdef : readConstant m = (frame >>= fun f => functionOf f >>= fun F =>
      Exec.need F.chunk.code[f.ip]? >>= fun b => jumpTo (f.ip + 1) >>= fun _ =>
      Exec.need F.chunk.constants[b.toNat]?) m := rfl
    rw [hdef]
    simp only [bind, EStateM.bind, frame_eq hf, hF, hcode, hb, Exec.need, pure, EStateM.pure,
      jumpTo_eq hf, hv]
  · exact .step hreach hobj (Heap.mem_children_constant (hy ▸ hv))

end

/-! ## Values -/

theorem pop_eq (hs : m.stack.depth ≤ m.stack.cells.size) (hd : m.stack.depth = n + 1) :
    ∃ v, m.stack.get? n = some v ∧ pop m = .ok v { m with stack := m.stack.cutTo n } := by
  obtain ⟨v, hv, hpop⟩ := Stack.pop?_eq hs hd
  refine ⟨v, hv, ?_⟩
  refine (run_bind (x := get) rfl).trans ?_
  rw [hpop]
  rfl

theorem peek_eq (hs : m.stack.depth ≤ m.stack.cells.size) (hn : n < m.stack.depth) :
    ∃ v, m.stack.get? (m.stack.depth - 1 - n) = some v ∧ peek n m = .ok v m := by
  obtain ⟨v, hv⟩ := Stack.get?_of_lt hs (i := m.stack.depth - 1 - n) (by omega)
  refine ⟨v, hv, ?_⟩
  have hdef : peek n m = Exec.need (m.stack.peek? n) m := rfl
  rw [hdef, Stack.peek?_eq hn, hv]
  rfl

theorem top_eq (hn : n ≤ m.stack.depth) :
    top n m = .ok (m.stack.toList.drop (m.stack.depth - n)) m := by
  have hdef : top n m = Exec.need (m.stack.top? n) m := rfl
  rw [hdef, Stack.top?_eq hn]
  rfl

theorem getSlot_eq (hv : m.stack.get? i = some v) : getSlot i m = .ok v m := by
  have hdef : getSlot i m = Exec.need (m.stack.get? i) m := rfl
  rw [hdef, hv]
  rfl

theorem setSlot_eq (v : Value) (hi : i < m.stack.depth) :
    setSlot i v m = .ok () { m with stack := m.stack.put i v } := by
  unfold setSlot
  rw [run_bind (x := get) rfl, if_pos hi]
  rfl

theorem live_of_get? (hs : m.Sound) (hv : m.stack.get? i = some v) : m.heap.LiveValue v :=
  hs.stack (Stack.mem_of_get? hv)

theorem object_eq {o : Object} (ho : m.heap.object? r = some o) : object r m = .ok o m := by
  have hdef : object r m = Exec.need (m.heap.object? r) m := rfl
  rw [hdef, ho]
  rfl

theorem upvalue_eq {u : Upvalue} (ho : m.heap.object? r = some (.upvalue u)) : upvalue r m = .ok u m :=
  run_bind (object_eq ho)

theorem symbol_eq {s : String} {n : UInt32} (ho : m.heap.object? r = some (.text s n)) :
    symbol (.object r) m = .ok ⟨r, s, n⟩ m := by
  have hdef : symbol (.object r) m = Exec.need (m.heap.symbol? r) m := rfl
  rw [hdef, Heap.symbol?, ho]
  rfl

theorem exists_text (hv : m.heap.Vetted V busy)
    (hl : m.heap.LiveValue v) : ∃ s, text v m = .ok s m := by
  have hsome : ∃ s, m.heap.text? v = some s := by
    cases v with
    | bool b => cases b <;> exact ⟨_, rfl⟩
    | nul => exact ⟨_, rfl⟩
    | number y => exact ⟨_, rfl⟩
    | object r =>
      obtain ⟨o, ho⟩ := Heap.Live.exists_object? hl
      have heq : m.heap.text? (.object r) = m.heap.objectText? o := by simp [Heap.text?, ho]
      rw [heq]
      cases o with
      | closure g us =>
        obtain ⟨p, -, r', us', ho', -, hlaid⟩ := hv.closure hl ho
        rw [ho] at ho'
        cases ho'
        obtain ⟨F, hF, -⟩ := Heap.laidOut_iff.1 hlaid
        exact ⟨m.heap.functionText F, by simp [Heap.objectText?, Heap.function?_of_object? hF]⟩
      | _ => exact ⟨_, rfl⟩
  obtain ⟨s, hs'⟩ := hsome
  have hdef : text v m = Exec.need (m.heap.text? v) m := rfl
  exact ⟨s, by rw [hdef, hs']; rfl⟩

theorem exists_typeName (hl : m.heap.LiveValue v) : ∃ s, typeName v m = .ok s m := by
  have hsome : ∃ s, m.heap.typeName? v = some s := by
    cases v with
    | object r =>
      obtain ⟨o, ho⟩ := Heap.Live.exists_object? hl
      simp [Heap.typeName?, ho]
    | _ => exact ⟨_, rfl⟩
  obtain ⟨s, hs⟩ := hsome
  have hdef : typeName v m = Exec.need (m.heap.typeName? v) m := rfl
  exact ⟨s, by rw [hdef, hs]; rfl⟩

theorem exists_foldlM_text (hv : m.heap.Vetted V busy)
    (join : String → String → String) (vs : List Value) (hvs : ∀ v ∈ vs, m.heap.LiveValue v)
    (acc : String) :
    ∃ s, (vs.foldlM (fun acc v => do pure (join acc (← text v))) acc : Exec String) m = .ok s m := by
  induction vs generalizing acc with
  | nil => exact ⟨acc, rfl⟩
  | cons v vs ih =>
    obtain ⟨s, hs'⟩ := exists_text hv (hvs v List.mem_cons_self)
    obtain ⟨t, ht⟩ := ih (fun w hw => hvs w (List.mem_cons_of_mem _ hw)) (join acc s)
    refine ⟨t, ?_⟩
    have hstep : (do pure (join acc (← text v)) : Exec String) m = .ok (join acc s) m := run_bind hs'
    rw [List.foldlM_cons, run_bind hstep]
    exact ht

/-! ## Captured variables -/

/-- The open variables at or above slot `last` have got values of their own. -/
structure Closed (last : Nat) (m m' : Machine) : Prop where
  rest_eq : m' = { m with heap := m'.heap, openUpvalues := m'.openUpvalues }
  steady : m.heap.Steady m'.heap
  live : ∀ {x}, m.heap.Live x → m'.heap.Live x
  opens : ∀ r ∈ m'.openUpvalues, r ∈ m.openUpvalues ∧ m'.heap.slotAt r = m.heap.slotAt r ∧
    m.heap.slotAt r < last

theorem Meets.closeList {last : Nat} (us : List Ref) (hs : m.Sound)
    (hv : m.heap.Vetted V busy) (hus : m.openUpvalues = us)
    (hlt : V.strict → ∀ r ∈ us, last ≤ m.heap.slotAt r → m.heap.slotAt r < m.stack.depth) :
    Meets V (closeList last us) m fun _ m' => m'.Sound ∧ m'.heap.Vetted V busy ∧ Closed last m m' := by
  induction us generalizing m with
  | nil => exact ⟨hs, hv, rfl, .refl _, id, fun r hr => by rw [hus] at hr; cases hr⟩
  | cons r rest ih =>
    have hopens : m.heap.Opens (r :: rest) := hus ▸ hs.opens
    obtain ⟨hl, u, hu, hopen⟩ := hopens.upvalue List.mem_cons_self
    have hslot : m.heap.slotAt r = u.slot := Heap.slotAt_eq hu
    obtain ⟨hhead, -⟩ := List.pairwise_cons.1 hopens.sorted
    rw [Exec.closeList]
    refine bind_ok (upvalue_eq hu) ?_
    by_cases hle : last ≤ u.slot
    · rw [if_pos hle]
      refine bind_ok (x := get) rfl ?_
      refine bind (need hs hv (Q := fun v m' => m.stack.get? u.slot = some v ∧ m' = m) ?_
        fun v hv => ⟨hv, rfl⟩) ?_
      · intro hstrict hnone
        obtain ⟨v, hv⟩ :=
          Stack.get?_of_lt hs.depth_le (hslot ▸ hlt hstrict r List.mem_cons_self (hslot.symm ▸ hle))
        rw [hnone] at hv
        cases hv
      · rintro v m' ⟨hget, heq⟩
        subst m'
        refine bind_ok (x := Exec.setObject _ _) rfl (bind_ok (x := modify _) rfl ?_)
        have hs1 := hs.setUpvalue (y := { u with isOpen := false, closed := v }) hu
          (live_of_get? hs hget) (hopens.close rfl)
        have hst : m.heap.Steady
          (m.heap.setObject r (.upvalue { u with isOpen := false, closed := v })) :=
          Heap.steady_setObject hu ⟨_, rfl, rfl⟩
        have hslots : ∀ y ∈ rest,
            (m.heap.setObject r (.upvalue { u with isOpen := false, closed := v })).slotAt y =
            m.heap.slotAt y := by
          intro y hy
          refine Heap.slotAt_congr (Heap.object?_setObject_of_ne ?_ _)
          rintro rfl
          exact Nat.lt_irrefl _ (hhead _ hy)
        refine (ih hs1 (hv.setUpvalue hs.heap hu rfl hs1.heap) rfl ?_).mono ?_
        · intro hstrict y hy hge
          have hge' := hslots y hy ▸ hge
          exact (hslots y hy).symm ▸ hlt hstrict y (List.mem_cons_of_mem _ hy) hge'
        · rintro _ m' ⟨hs', hv', hc⟩
          refine ⟨hs', hv', hc.rest_eq, hst.trans hc.steady, fun hl =>
            hc.live ((Heap.live_setObject ..).2 hl), fun y hy => ?_⟩
          obtain ⟨hy', heq, hlast⟩ := hc.opens y hy
          rw [hslots y hy'] at heq hlast
          exact ⟨hus ▸ List.mem_cons_of_mem _ hy', heq, hlast⟩
    · rw [if_neg hle]
      exact ⟨hs, hv, rfl, .refl _, id, fun y hy => ⟨hy, rfl, hopens.lt_of_head (by omega) (hus ▸ hy)⟩⟩

theorem Meets.closeFrom {last : Nat} (hs : m.Sound) (hv : m.heap.Vetted V busy)
    (hlt : V.strict → ∀ r ∈ m.openUpvalues, last ≤ m.heap.slotAt r → m.heap.slotAt r < m.stack.depth) :
    Meets V (closeFrom last) m fun _ m' => m'.Sound ∧ m'.heap.Vetted V busy ∧ Closed last m m' :=
  bind_ok (x := get) rfl (.closeList _ hs hv rfl hlt)

theorem splitOpen_eq (slot : Nat) (us : List Ref)
    (hus : ∀ r ∈ us, ∃ u, m.heap.object? r = some (.upvalue u)) :
    splitOpen slot us m =
      .ok (us.takeWhile (slot < m.heap.slotAt ·), us.dropWhile (slot < m.heap.slotAt ·)) m := by
  induction us with
  | nil => rfl
  | cons r rest ih =>
    obtain ⟨u, hu⟩ := hus r List.mem_cons_self
    have hslot : m.heap.slotAt r = u.slot := Heap.slotAt_eq hu
    have hrest := ih fun y hy => hus y (List.mem_cons_of_mem _ hy)
    rw [splitOpen]
    by_cases hlt : slot < u.slot
    · simp [bind, EStateM.bind, upvalue_eq hu, hlt, hrest, hslot, pure, EStateM.pure]
    · simp [bind, EStateM.bind, upvalue_eq hu, hlt, hslot, pure, EStateM.pure]

/-- How a capture of `slot` ends: with the open variable of that slot, or with a new one between
those above it and those below. -/
inductive Capture (slot : Nat) (m : Machine) : Ref → Machine → Prop
  | known {r : Ref} (mem : r ∈ m.openUpvalues) (slot_eq : m.heap.slotAt r = slot) : Capture slot m r m
  | fresh {r : Ref} {h : Heap} {above others : List Ref} (split : above ++ others = m.openUpvalues)
      (above_lt : ∀ x ∈ above, slot < m.heap.slotAt x)
      (others_lt : ∀ x ∈ others, m.heap.slotAt x < slot)
      (allocated : m.heap.Allocated m.roots.refs (.upvalue ⟨true, slot, .nul⟩) r h) :
      Capture slot m r { m with heap := h, openUpvalues := above ++ r :: others }

/-- The slot is captured already, or it is found where in the list its variable belongs. -/
theorem capture_split (slot : Nat)
    (hup : ∀ r ∈ m.openUpvalues, ∃ u, m.heap.object? r = some (.upvalue u))
    (hsorted : m.openUpvalues.Pairwise fun a b => m.heap.slotAt b < m.heap.slotAt a) :
    (∃ r ∈ m.openUpvalues, m.heap.slotAt r = slot ∧ capture slot m = .ok r m) ∨
    ∃ above others, above ++ others = m.openUpvalues ∧ (∀ x ∈ above, slot < m.heap.slotAt x) ∧
      (∀ x ∈ others, m.heap.slotAt x < slot) ∧
      capture slot m = .ok (m.heap.allocate m.roots (.upvalue ⟨true, slot, .nul⟩)).1 { m with
        heap := (m.heap.allocate m.roots (.upvalue ⟨true, slot, .nul⟩)).2
        openUpvalues :=
          above ++ (m.heap.allocate m.roots (.upvalue ⟨true, slot, .nul⟩)).1 :: others } := by
  have hsplit := splitOpen_eq slot m.openUpvalues hup
  have happend : m.openUpvalues.takeWhile (slot < m.heap.slotAt ·) ++
    m.openUpvalues.dropWhile (slot < m.heap.slotAt ·) = m.openUpvalues :=
    List.takeWhile_append_dropWhile
  have habove : ∀ x ∈ m.openUpvalues.takeWhile (slot < m.heap.slotAt ·), slot < m.heap.slotAt x :=
    fun x hx => by
    simpa using List.all_eq_true.1
      (List.all_takeWhile (p := fun r => decide (slot < m.heap.slotAt r))) x hx
  have hhead : ∀ x ∈ (m.openUpvalues.dropWhile (slot < m.heap.slotAt ·)).head?,
      m.heap.slotAt x ≤ slot := by
    intro x hx
    have := List.head?_dropWhile_not (fun r => decide (slot < m.heap.slotAt r)) m.openUpvalues
    rw [hx] at this
    simpa using this
  unfold capture
  rw [run_bind (x := get) rfl, run_bind hsplit]
  generalize m.openUpvalues.takeWhile (slot < m.heap.slotAt ·) = above at *
  generalize m.openUpvalues.dropWhile (slot < m.heap.slotAt ·) = others at *
  -- the variable is known, or a new one takes its place between the two halves
  by_cases hknown : ∃ x ∈ others.head?, m.heap.slotAt x = slot
  · obtain ⟨x, hx, hslot⟩ := hknown
    obtain ⟨rest, rfl⟩ := List.head?_eq_some_iff.1 hx
    have hmem : x ∈ m.openUpvalues := happend ▸ List.mem_append_right _ List.mem_cons_self
    obtain ⟨u, hu⟩ := hup x hmem
    have hu' : u.slot = slot := (Heap.slotAt_eq hu).symm.trans hslot
    refine .inl ⟨x, hmem, hslot, (run_bind (upvalue_eq hu)).trans ?_⟩
    simp only [hu', beq_self_eq_true, if_true]
    rfl
  · have hothers : ∀ x ∈ others, m.heap.slotAt x < slot := by
      have hlt : ∀ x ∈ others.head?, m.heap.slotAt x < slot := fun x hx =>
        Nat.lt_of_le_of_ne (hhead x hx) fun heq => hknown ⟨x, hx, heq⟩
      intro x hx
      cases others with
      | nil => cases hx
      | cons y rest =>
        have hy := hlt y rfl
        rcases List.mem_cons.1 hx with rfl | hx
        · exact hy
        · have hsorted' := (List.pairwise_append.1 (happend.symm ▸ hsorted)).2.1
          exact Nat.lt_trans ((List.pairwise_cons.1 hsorted').1 x hx) hy
    refine .inr ⟨above, others, happend, habove, hothers, ?_⟩
    cases others with
    | nil => rfl
    | cons y rest =>
      obtain ⟨u, hu⟩ := hup y (happend ▸ List.mem_append_right _ List.mem_cons_self)
      have hne : u.slot ≠ slot := fun heq => hknown ⟨y, rfl, (Heap.slotAt_eq hu).trans heq⟩
      refine (run_bind (upvalue_eq hu)).trans ?_
      simp only [beq_eq_false_iff_ne.2 hne, Bool.false_eq_true, if_false]
      rfl

theorem capture_cases (slot : Nat) (hs : m.Sound) :
    ∃ r m', capture slot m = .ok r m' ∧ Capture slot m r m' := by
  have hup : ∀ r ∈ m.openUpvalues, ∃ u, m.heap.object? r = some (.upvalue u) := fun r hr =>
    (hs.opens.upvalue hr).2.imp fun _ h => h.1
  rcases capture_split slot hup hs.opens.sorted with
    ⟨r, hr, hslot, heq⟩ | ⟨above, others, hlist, habove, hothers, heq⟩
  · exact ⟨r, m, heq, .known hr hslot⟩
  · have ha := hs.allocated (o := .upvalue ⟨true, slot, .nul⟩) (by simp)
      (by simp [Object.children, Object.children.values])
    exact ⟨_, _, heq, .fresh hlist habove hothers ha⟩

/-- A slot that needs a new variable has no open one. -/
theorem Capture.slotAt_ne {slot : Nat} {above others : List Ref}
    (hsplit : above ++ others = m.openUpvalues)
    (habove : ∀ x ∈ above, slot < m.heap.slotAt x) (hothers : ∀ x ∈ others, m.heap.slotAt x < slot)
    (hr : r ∈ m.openUpvalues) : m.heap.slotAt r ≠ slot := by
  rw [← hsplit, List.mem_append] at hr
  rcases hr with hr | hr
  · exact Nat.ne_of_gt (habove r hr)
  · exact Nat.ne_of_lt (hothers r hr)

theorem Capture.opens {slot : Nat} {h : Heap} {above others : List Ref} (hs : m.Sound)
    (hsplit : above ++ others = m.openUpvalues) (habove : ∀ x ∈ above, slot < m.heap.slotAt x)
    (hothers : ∀ x ∈ others, m.heap.slotAt x < slot)
    (ha : m.heap.Allocated m.roots.refs (.upvalue ⟨true, slot, .nul⟩) r h) :
    h.Opens (above ++ r :: others) :=
  (hsplit.symm ▸ hs.opens : m.heap.Opens (above ++ others)).insert ha
    (fun _ hx => Machine.mem_refs.2 (Or.inr (Or.inr (Or.inl (hsplit ▸ hx))))) rfl habove hothers

/-- What a capture of `slot` leaves, with `r` for it. -/
structure Captured (slot : Nat) (m : Machine) (r : Ref) (m' : Machine) : Prop where
  rest_eq : m' = { m with heap := m'.heap, openUpvalues := m'.openUpvalues }
  sound : m'.Sound
  evolves : m.heap.Evolves m.roots.refs m'.heap
  live : m'.heap.Live r
  upvalue : ∃ u, m'.heap.object? r = some (.upvalue u)
  opens : ∀ x ∈ m'.openUpvalues, x ∈ m.openUpvalues ∧ m'.heap.slotAt x = m.heap.slotAt x ∨
    m'.heap.slotAt x = slot

theorem exists_capture (slot : Nat) (hs : m.Sound) (hv : m.heap.Vetted V busy) :
    ∃ r m', capture slot m = .ok r m' ∧ Captured slot m r m' ∧ m'.heap.Vetted V busy := by
  obtain ⟨r, m', hrun, hcase⟩ := capture_cases slot hs
  refine ⟨r, m', hrun, ?_⟩
  cases hcase with
  | known hmem hslot =>
    obtain ⟨hl, u, hu, -⟩ := hs.opens.upvalue hmem
    exact ⟨⟨rfl, hs, .refl hs.heap fun r hr => hs.roots hr, hl, ⟨u, hu⟩, fun y hy =>
      Or.inl ⟨hy, rfl⟩⟩, hv⟩
  | @fresh h above others hsplit habove hothers ha =>
    have hsound := hs.evolvesTo ha.toEvolves (Capture.opens hs hsplit habove hothers ha)
    have hvet := hv.evolves ha.toEvolves hs.heap (ha.adds (F := V.Welcomes) trivial)
    refine ⟨⟨rfl, hsound, ha.toEvolves, ha.live_new, ⟨_, ha.object_new⟩, ?_⟩, hvet⟩
    intro x hx
    simp only [List.mem_append, List.mem_cons] at hx
    by_cases heq : x = r
    · exact Or.inr (heq ▸ Heap.slotAt_eq ha.object_new)
    · have hmem : x ∈ m.openUpvalues := by
        rw [← hsplit, List.mem_append]
        rcases hx with hx | hx | hx
        · exact Or.inl hx
        · exact (heq hx).elim
        · exact Or.inr hx
      exact Or.inl ⟨hmem, hs.slotAt_evolves ha.toEvolves hmem⟩

theorem Meets.upvalue (hs : m.Sound) (hv : m.heap.Vetted V busy) (hl : m.heap.Live r)
    (hup : V.strict → ∃ u, m.heap.object? r = some (.upvalue u)) :
    Meets V (upvalue r) m fun u m' => m' = m ∧ m.heap.object? r = some (.upvalue u) := by
  obtain ⟨o, ho⟩ := hl.exists_object?
  unfold Exec.upvalue
  refine bind_ok (object_eq ho) ?_
  cases o with
  | upvalue u => exact ⟨rfl, ho⟩
  | _ =>
    refine fault (fun hstrict => ?_) hs hv
    obtain ⟨u, hu⟩ := hup hstrict
    rw [ho] at hu
    cases hu

theorem liveValue_closed (hs : m.Sound) {u : Upvalue} (hl : m.heap.Live r)
    (hu : m.heap.object? r = some (.upvalue u)) : m.heap.LiveValue u.closed :=
  .of_live fun y hy => hs.heap.closed hl hu y (Heap.mem_children_closed.2 hy)

theorem Meets.readUpvalue (hm : m.Standing V) (hl : m.heap.Live r)
    (hup : V.strict → ∃ u, m.heap.object? r = some (.upvalue u)) :
    Meets V (readUpvalue r) m fun v m' => m' = m ∧ m.heap.LiveValue v := by
  unfold Exec.readUpvalue
  refine bind (upvalue hm.sound hm.vetted hl hup) ?_
  rintro u m' ⟨heq, hu⟩
  subst m'
  split
  · rename_i hopen
    refine bind_ok (x := get) rfl (need hm.sound hm.vetted (fun hstrict hnone => ?_) fun v hv =>
      ⟨rfl, live_of_get? hm.sound hv⟩)
    have hlt := hm.open_lt hstrict r (hm.sound.opens.all hl hu hopen)
    rw [Heap.slotAt_eq hu] at hlt
    obtain ⟨v, hv⟩ := Stack.get?_of_lt hm.sound.depth_le hlt
    rw [hnone] at hv
    cases hv
  · exact ⟨rfl, liveValue_closed hm.sound hl hu⟩

/-- A closure over a function that is in use, its captured variables still to be filled in. -/
theorem Meets.newClosure {q : Proto} (hs : m.Sound) (hv : m.heap.Vetted V idle) (hq : V.good q)
    (hlaid : m.heap.LaidOut q r) (hreach : m.heap.Reach m.roots.refs r) (hsane : V.strict → q.Sane) :
    Meets V (newClosure r) m fun c m' => q.Sane ∧ m' = { m with heap := m'.heap } ∧ m'.Sound ∧
      m'.heap.Vetted V (· = c) ∧ m'.heap.LaidOut q r ∧
      m.heap.Allocated m.roots.refs (.closure (some r) (Array.replicate q.upvalueCount.toNat none))
      c m'.heap := by
  obtain ⟨F, hF, -, -, hup, -⟩ := Heap.laidOut_iff.1 hlaid
  have hfunction : function r m = .ok F m := by
    have hdef : function r m = Exec.need (m.heap.function? r) m := rfl
    rw [hdef, Heap.function?_of_object? hF]
    rfl
  have hiff : (decide (0 ≤ q.upvalueCount) && decide (q.upvalueCount < upvalueRoom)) = true ↔
      q.Sane := by
    rw [Bool.and_eq_true, decide_eq_true_iff, decide_eq_true_iff]
    rfl
  unfold Exec.newClosure
  refine .bind_ok hfunction ?_
  rw [hup]
  split
  · rename_i hroom
    have hroots : ∀ x ∈ m.roots.refs, m.heap.Live x := fun x hx => hs.roots hx
    have ha := hs.heap.allocate hroots
      (o := .closure (some r) (Array.replicate q.upvalueCount.toNat none)) (by simp) (by
        intro x hx
        simp only [Object.children, Option.toList_some, List.mem_append, List.mem_singleton,
          List.mem_filterMap, Array.toList_replicate, List.mem_replicate] at hx
        rcases hx with rfl | ⟨o, ⟨-, rfl⟩, ho⟩
        · exact hreach
        · cases ho)
    have hlaid' := hlaid.evolves ha.toEvolves hs.heap hroots hreach
    have hs' := hs.evolves ha.toEvolves (ha.addsNoOpen (by simp))
    exact .of_ok (x := Exec.allocate _) rfl
      ⟨hiff.1 hroom, rfl, hs', hv.newClosure ha hs.heap hq (by simp) hlaid', hlaid', ha⟩
  · rename_i hroom
    exact .fault (fun hstrict => hroom (hiff.2 (hsane hstrict))) hs hv

/-! ## Failures -/

theorem exists_traceOf (fs : List Frame) (hfs : ∀ f ∈ fs, ∃ p, V.good p ∧ m.heap.Runs f.closure p ∧
      f.ip - 1 < p.code.size) :
    ∃ ts, traceOf fs m = .ok ts m := by
  induction fs with
  | nil => exact ⟨[], rfl⟩
  | cons f fs ih =>
    obtain ⟨p, hp, hr, hlt⟩ := hfs f List.mem_cons_self
    obtain ⟨F, r, hF, -, -, hlines, -⟩ := exists_functionOf hr
    obtain ⟨ts, hts⟩ := ih fun g hg => hfs g (List.mem_cons_of_mem _ hg)
    have hlt' : f.ip - 1 < F.chunk.lines.size := by
      rw [hlines, V.lines hp]
      exact hlt
    have hline : (Exec.need F.chunk.lines[f.ip - 1]?) m = .ok F.chunk.lines[f.ip - 1] m := by
      rw [Array.getElem?_eq_getElem hlt']
      rfl
    refine ⟨⟨F.chunk.lines[f.ip - 1], (m.heap.nameOf F).getD ""⟩ :: ts, ?_⟩
    rw [traceOf, run_bind hF, run_bind hline, run_bind (x := get) rfl, run_bind hts]
    rfl

/-- **A failure leaves the machine ready.** -/
theorem Meets.raise (hm : m.Standing V) {e : Failure} (he : ∀ f, e ≠ .fault f)
    {Q : α → Machine → Prop} : Meets V (raise e : Exec α) m Q := by
  obtain ⟨ts, hts⟩ := exists_traceOf (V := V) m.frames.toList.reverse fun f hf =>
    hm.traced f (Array.mem_toList_iff.1 (List.mem_reverse.1 hf))
  unfold Exec.raise
  refine bind_ok (x := get) rfl (bind_ok hts ?_)
  refine bind (Q := fun _ m' => m'.Ready V) ?_ ?_
  · unfold resetStack
    refine bind (closeFrom hm.sound hm.vetted fun hstrict r hr _ => hm.open_lt hstrict r hr) ?_
    rintro _ m' ⟨hs, hv, hc⟩
    have hnil : m'.openUpvalues = [] :=
      List.eq_nil_iff_forall_not_mem.2 fun r hr => Nat.not_lt_zero _ (hc.opens r hr).2.2
    exact ⟨(hs.cutTo (Nat.zero_le _)).withFrames (by simp), hv, rfl, hnil⟩
  · intro _ m' hr
    refine ⟨hr, ?_⟩
    cases ts <;> exact he

theorem Meets.raise_bind (hm : m.Standing V) {e : Failure} (he : ∀ f, e ≠ .fault f) {k : α → Exec β}
    {R : β → Machine → Prop} : Meets V ((Exec.raise e : Exec α) >>= k) m R :=
  bind (Q := fun _ _ => False) (raise hm he) fun _ _ h => h.elim

end Exec

end Parlance
