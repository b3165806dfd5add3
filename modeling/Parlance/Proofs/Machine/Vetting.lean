/-
  Vetted code, and calls that are under way in it.
-/
import Parlance.Proofs.Machine.Sound
import Parlance.Proofs.Code.Chart

namespace Parlance

/-- The functions that a machine may have, and their charts. -/
structure Vetting where
  /-- The charts keep track of captured variables. -/
  strict : Prop
  good : Proto → Prop
  /-- The natives that may be called. -/
  native : Native → Prop
  chart : Proto → Chart
  nested : ∀ {p q}, good p → Constant.function q ∈ p.constants → good q
  charted : ∀ {p}, good p → 0 ≤ p.arity → p.arity ≤ 255 → p.Charted (chart p)
  lines : ∀ {p}, good p → p.lines.size = p.code.size
  /-- The operands of charted instructions are in the code, captures of a closure apart. -/
  whole : ∀ {p o w op}, good p → 0 ≤ p.arity → p.arity ≤ 255 → chart p o = some w →
    p.chunk.op? o = some op → o + (1 + op.width) ≤ p.code.size
  tidy : strict → ∀ {p o w op}, good p → chart p o = some w → p.chunk.op? o = some op →
    p.chunk.Tidy op o w

/-- Objects that the host may add: no closures, and of natives only vetted ones. -/
def Vetting.Welcomes (V : Vetting) : Object → Prop
  | .closure .. => False
  | .native n => V.native n
  | _ => True

theorem Object.Plain.welcome {o : Object} (ho : o.Plain) (V : Vetting) : V.Welcomes o := by
  cases o with
  | native => exact ho.elim
  | _ => trivial

/-- What may become of an object that stays: closures keep their function, captured variables their
slot, and all others everything. -/
def Object.Becomes : Object → Object → Prop
  | .closure f us, o => ∃ us', o = .closure f us' ∧ us'.size = us.size
  | .upvalue u, o => ∃ u', o = .upvalue u' ∧ u'.slot = u.slot
  | o, o' => o' = o

theorem Object.Becomes.refl (o : Object) : o.Becomes o := by
  cases o with
  | closure f us => exact ⟨us, rfl, rfl⟩
  | upvalue u => exact ⟨u, rfl, rfl⟩
  | _ => rfl

theorem Object.Becomes.trans {o o' o'' : Object} (h : o.Becomes o') (h' : o'.Becomes o'') :
    o.Becomes o'' := by
  cases o with
  | closure f us =>
    obtain ⟨us', rfl, hsize⟩ := h
    obtain ⟨us'', rfl, hsize'⟩ := h'
    exact ⟨us'', rfl, hsize'.trans hsize⟩
  | upvalue u =>
    obtain ⟨u', rfl, hslot⟩ := h
    obtain ⟨u'', rfl, hslot'⟩ := h'
    exact ⟨u'', rfl, hslot'.trans hslot⟩
  | _ => exact h ▸ h'

namespace Heap

variable {us : Array (Option Ref)} {f : Option Ref} {busy : Ref → Prop} {o : Object}
  {roots : List Ref} {h h' h'' : Heap} {r x : Ref} {p : Proto} {V : Vetting}

/-! ## Steady heaps -/

/-- Between `h` and `h'` objects come and go, but those that stay keep their kind. -/
structure Steady (h h' : Heap) : Prop where
  size_le : h.cells.size ≤ h'.cells.size
  old : ∀ {x}, h'.Live x → x.serial < h.cells.size → h.Live x
  object : ∀ {x o}, h.Live x → h'.Live x → h.object? x = some o →
    ∃ o', h'.object? x = some o' ∧ o.Becomes o'

section

variable (hst : h.Steady h')
include hst

theorem Steady.fixed (hl : h.Live x) (hl' : h'.Live x) (ho : h.object? x = some o) (hf : o.Fixed) :
    h'.object? x = some o := by
  obtain ⟨o', ho', hb⟩ := hst.object hl hl' ho
  cases o with
  | closure | upvalue => exact hf.elim
  | _ => exact hb ▸ ho'

theorem Steady.closure (hl : h.Live x) (hl' : h'.Live x)
    (ho : h.object? x = some (.closure f us)) :
    ∃ us', h'.object? x = some (.closure f us') ∧ us'.size = us.size := by
  obtain ⟨_, ho', us', rfl, hsize⟩ := hst.object hl hl' ho
  exact ⟨us', ho', hsize⟩

theorem Steady.upvalue {u : Upvalue} (hl : h.Live x) (hl' : h'.Live x)
    (ho : h.object? x = some (.upvalue u)) :
    ∃ u', h'.object? x = some (.upvalue u') ∧ u'.slot = u.slot := by
  obtain ⟨_, ho', u', rfl, hslot⟩ := hst.object hl hl' ho
  exact ⟨u', ho', hslot⟩

end

theorem Steady.refl (h : Heap) : h.Steady h :=
  ⟨Nat.le_refl _, fun hl _ => hl, fun _ _ ho => ⟨_, ho, .refl _⟩⟩

theorem Steady.trans (h1 : h.Steady h') (h2 : h'.Steady h'') : h.Steady h'' where
  size_le := Nat.le_trans h1.size_le h2.size_le
  old hl hlt := h1.old (h2.old hl (Nat.lt_of_lt_of_le hlt h1.size_le)) hlt
  object hl hl'' ho := by
    have hl' := h2.old hl'' (Nat.lt_of_lt_of_le hl.lt h1.size_le)
    obtain ⟨o', ho', hb⟩ := h1.object hl hl' ho
    obtain ⟨o'', ho'', hb'⟩ := h2.object hl' hl'' ho'
    exact ⟨o'', ho'', hb.trans hb'⟩

theorem Evolves.steady (he : h.Evolves roots h') : h.Steady h' :=
  ⟨he.size_le, fun hl hlt => (he.old hl hlt).1, fun hl hl' ho =>
    ⟨_, (he.object_eq hl hl').trans ho, .refl _⟩⟩

theorem Agrees.steady (ha : h.Agrees h') : h.Steady h' :=
  ⟨Nat.le_of_eq ha.size_eq.symm, fun hl _ => ha.live_iff.1 hl, fun _ _ ho =>
    ⟨_, (ha.object_eq _).trans ho, .refl _⟩⟩

theorem steady_setObject {o o' : Object} (hr : h.object? r = some o) (hb : o.Becomes o') :
    h.Steady (h.setObject r o') where
  size_le := by simp [Heap.setObject]
  old hl _ := (live_setObject ..).1 hl
  object {x p} _ _ ho := by
    by_cases heq : r = x
    · subst heq
      rw [hr] at ho
      cases ho
      exact ⟨o', object?_setObject_self hr o', hb⟩
    · exact ⟨p, (object?_setObject_of_ne heq o').trans ho, .refl p⟩

theorem Steady.slotAt_eq (hst : h.Steady h') {u : Upvalue} (hl : h.Live r) (hl' : h'.Live r)
    (hr : h.object? r = some (.upvalue u)) : h'.slotAt r = h.slotAt r := by
  obtain ⟨u', hr', hslot⟩ := hst.upvalue hl hl' hr
  rw [Heap.slotAt_eq hr, Heap.slotAt_eq hr', hslot]

theorem LaidOut.steady (hp : h.LaidOut p r) (hst : h.Steady h') (hs : h.Sound) (hs' : h'.Sound)
    (hl : h.Live r) (hl' : h'.Live r) : h'.LaidOut p r := by
  refine hp.keeps (S := fun x => h.Live x ∧ h'.Live x) ⟨?_, ?_⟩ ⟨hl, hl'⟩
  · exact fun hx ho hf => hst.fixed hx.1 hx.2 ho hf
  · exact fun hx ho hf c hc =>
      ⟨hs.closed hx.1 ho c hc, hs'.closed hx.2 (hst.fixed hx.1 hx.2 ho hf) c hc⟩

/-! ## Vetted closures -/

/-- The closure wraps the function `p`. -/
def Runs (h : Heap) (closure : Ref) (p : Proto) : Prop :=
  ∃ r us, h.object? closure = some (.closure (some r) us) ∧ us.size = p.upvalueCount.toNat ∧
    h.LaidOut p r

theorem Runs.steady {closure : Ref} (hr : h.Runs closure p) (hst : h.Steady h') (hs : h.Sound)
    (hs' : h'.Sound) (hl : h.Live closure) (hl' : h'.Live closure) : h'.Runs closure p := by
  obtain ⟨r, us, ho, hsize, hp⟩ := hr
  obtain ⟨us', ho', hsize'⟩ := hst.closure hl hl' ho
  have hc : ∀ vs : Array (Option Ref), r ∈ (Object.closure (some r) vs).children := fun vs =>
    List.mem_append.2 (Or.inl (by simp))
  exact ⟨r, us', ho', hsize'.trans hsize, hp.steady hst hs hs' (hs.closed hl ho r (hc us))
    (hs'.closed hl' ho' r (hc us'))⟩

/-- The captured variable number `i` is filled in. -/
def FilledAt (h : Heap) (us : Array (Option Ref)) (i : Nat) : Prop :=
  ∃ y u, us[i]? = some (some y) ∧ h.object? y = some (.upvalue u)

/-- The natives and closures of the heap are vetted. A closure in `busy` may have variables to be
filled in. -/
structure Vetted (V : Vetting) (h : Heap) (busy : Ref → Prop) : Prop where
  native : ∀ {x n}, h.Live x → h.object? x = some (.native n) → V.native n
  closure : ∀ {x f us}, h.Live x → h.object? x = some (.closure f us) → ∃ p, V.good p ∧ h.Runs x p
  filled : V.strict → ∀ {x f us i}, h.Live x → ¬ busy x → h.object? x = some (.closure f us) →
    i < us.size → h.FilledAt us i

/-- No closure is being filled in. -/
def idle (_ : Ref) : Prop := False

theorem mem_children_upvalue {i : Nat} (hi : us[i]? = some (some x)) :
    x ∈ (Object.closure f us).children := by
  refine List.mem_append.2 (Or.inr (List.mem_filterMap.2 ⟨some x, ?_, rfl⟩))
  exact Array.mem_toList_iff.2 (Array.mem_iff_getElem?.2 ⟨i, hi⟩)

theorem FilledAt.steady {i : Nat} (hi : h.FilledAt us i) (hst : h.Steady h') (hs : h.Sound)
    (hs' : h'.Sound) (hl : h.Live x) (hl' : h'.Live x) (ho : h.object? x = some (.closure f us))
    (ho' : h'.object? x = some (.closure f us)) : h'.FilledAt us i := by
  obtain ⟨y, u, hy, hu⟩ := hi
  have hc := mem_children_upvalue (f := f) hy
  obtain ⟨u', hu', -⟩ := hst.upvalue (hs.closed hl ho y hc) (hs'.closed hl' ho' y hc) hu
  exact ⟨y, u', hy, hu'⟩

/-- An object of the heap is vetted. -/
def Vets (V : Vetting) (h : Heap) (busy : Ref → Prop) (x : Ref) : Object → Prop
  | .native n => V.native n
  | .closure _ us => (∃ p, V.good p ∧ h.Runs x p) ∧
      (V.strict → ¬ busy x → ∀ i < us.size, h.FilledAt us i)
  | _ => True

theorem vets_of_welcomes (ho : V.Welcomes o) : Vets V h busy x o := by
  cases o with
  | native n => exact ho
  | closure => exact ho.elim
  | _ => trivial

theorem vetted_iff :
    Vetted V h busy ↔ ∀ {x o}, h.Live x → h.object? x = some o → Vets V h busy x o := by
  constructor
  · intro hv x o hl ho
    cases o with
    | native n => exact hv.native hl ho
    | closure f us => exact ⟨hv.closure hl ho, fun hstrict hnot i => hv.filled hstrict hl hnot ho⟩
    | _ => trivial
  · exact fun hv =>
      ⟨fun hl ho => hv hl ho, fun hl ho => (hv hl ho).1, fun hstrict _ _ _ i hl hnot ho =>
      (hv hl ho).2 hstrict hnot i⟩

theorem Vets.mono {N : Native → Prop}
    (hx : h.Vets { V with native := N } busy x o) (hN : ∀ k, N k → V.native k) :
    h.Vets V busy x o := by
  cases o with
  | native n => exact hN n hx
  | _ => exact hx

theorem Vets.steady {busy busy' : Ref → Prop} (hx : Vets V h busy x o) (hst : h.Steady h')
    (hs : h.Sound) (hs' : h'.Sound) (hl : h.Live x) (hl' : h'.Live x) (ho : h.object? x = some o)
    (ho' : h'.object? x = some o) (hbusy : busy x → busy' x) : Vets V h' busy' x o := by
  cases o with
  | native n => exact hx
  | closure f us =>
    obtain ⟨⟨p, hp, hr⟩, hfilled⟩ := hx
    exact ⟨⟨p, hp, hr.steady hst hs hs' hl hl'⟩, fun hstrict hnot i hi =>
      (hfilled hstrict (fun hb => hnot (hbusy hb)) i hi).steady hst hs hs' hl hl' ho ho'⟩
  | _ => trivial

/-- While the heap is steady, what is vetted stays so. What is new, or changes, is to be vetted
itself. -/
theorem Vetted.steady {busy busy' : Ref → Prop} (hv : Vetted V h busy) (hst : h.Steady h')
    (hs : h.Sound) (hs' : h'.Sound) (hnew : ∀ {x o}, h'.Live x → h'.object? x = some o →
      h.Live x ∧ h.object? x = some o ∧ (busy x → busy' x) ∨ Vets V h' busy' x o) :
        Vetted V h' busy' := by
  refine vetted_iff.2 fun {x o} hl ho => ?_
  rcases hnew hl ho with ⟨hl0, ho0, hbusy⟩ | hvets
  · exact (vetted_iff.1 hv hl0 ho0).steady hst hs hs' hl0 hl ho0 ho hbusy
  · exact hvets

theorem Vetted.evolves (hv : Vetted V h busy) (he : h.Evolves roots h')
    (hs : h.Sound) (hadds : Adds V.Welcomes h h') : Vetted V h' busy := by
  refine hv.steady he.steady hs he.sound fun {x o} hl ho => ?_
  by_cases hlt : x.serial < h.cells.size
  · obtain ⟨hl', heq⟩ := he.old hl hlt
    exact Or.inl ⟨hl', heq ▸ ho, id⟩
  · exact Or.inr (vets_of_welcomes (hadds hl (Nat.not_lt.1 hlt) ho))

section

variable {busy : Ref → Prop} (hv : Vetted V h busy) (hs : h.Sound)
include hv hs

theorem Vetted.setObject {o o' : Object} (hr : h.object? r = some o) (hb : o.Becomes o')
    (hs' : (h.setObject r o').Sound)
    (hvets : h.Live r → Vets V (h.setObject r o') busy r o') : Vetted V (h.setObject r o') busy := by
  refine hv.steady (steady_setObject hr hb) hs hs' fun {x p} hl ho => ?_
  rw [live_setObject] at hl
  by_cases heq : r = x
  · subst heq
    rw [object?_setObject_self hr] at ho
    cases ho
    exact Or.inr (hvets hl)
  · rw [object?_setObject_of_ne heq] at ho
    exact Or.inl ⟨hl, ho, id⟩

theorem Vetted.setUpvalue {u u' : Upvalue} (hr : h.object? r = some (.upvalue u))
    (hslot : u'.slot = u.slot)
    (hs' : (h.setObject r (.upvalue u')).Sound) : Vetted V (h.setObject r (.upvalue u')) busy :=
  hv.setObject hs hr ⟨u', rfl, hslot⟩ hs' fun _ => trivial

theorem Vetted.setClosure {us us' : Array (Option Ref)} (hr : h.object? r = some (.closure f us))
    (hsize : us'.size = us.size) (hbusy : busy r) (hs' : (h.setObject r (.closure f us')).Sound) :
    Vetted V (h.setObject r (.closure f us')) busy := by
  have hb : (Object.closure f us).Becomes (.closure f us') := ⟨us', rfl, hsize⟩
  refine hv.setObject hs hr hb hs' fun hl => ⟨?_, fun _ hnot => absurd hbusy hnot⟩
  obtain ⟨p, hp, hruns⟩ := hv.closure hl hr
  exact ⟨p, hp, hruns.steady (steady_setObject hr hb) hs hs' hl ((live_setObject ..).2 hl)⟩

end

theorem Vetted.newClosure (hv : Vetted V h idle) {r' : Ref}
    (ha : h.Allocated roots (.closure (some r) us) r' h') (hs : h.Sound) (hp : V.good p)
    (hsize : us.size = p.upvalueCount.toNat) (hlaid : h'.LaidOut p r) :
    Vetted V h' fun x => x = r' := by
  refine hv.steady ha.steady hs ha.sound fun {x o} hl ho => ?_
  rcases ha.live_old hl with rfl | hl'
  · rw [ha.object_new] at ho
    cases ho
    exact Or.inr ⟨⟨p, hp, r, us, ha.object_new, hsize, hlaid⟩, fun _ hnot => absurd rfl hnot⟩
  · exact Or.inl ⟨hl', (ha.object_eq hl' hl) ▸ ho, False.elim⟩

theorem Vetted.complete (hv : Vetted V h fun x => x = r)
    (hr : h.object? r = some (.closure f us)) (hall : V.strict → ∀ i < us.size, h.FilledAt us i) :
    Vetted V h idle := by
  refine ⟨hv.native, hv.closure, ?_⟩
  intro hstrict x g vs i hl _ ho hi
  by_cases heq : x = r
  · subst heq
    rw [hr] at ho
    cases ho
    exact hall hstrict i hi
  · exact hv.filled hstrict hl heq ho hi

theorem Vetted.of_not_strict {busy busy' : Ref → Prop} (hv : Vetted V h busy) (hnot : ¬ V.strict) :
    Vetted V h busy' :=
  ⟨hv.native, hv.closure, fun hstrict => (hnot hstrict).elim⟩

end Heap

theorem Vetting.fits {V : Vetting} {p : Proto} {o : Nat} {w : Window} {op : Op} (hp : V.good p)
    (ha : 0 ≤ p.arity ∧ p.arity ≤ 255) (hw : V.chart p o = some w) (hop : p.chunk.op? o = some op) :
    p.chunk.Fits p.upvalueCount op o w := by
  obtain ⟨op', hf⟩ := (V.charted hp ha.1 ha.2).fits hw
  obtain rfl : op' = op := Option.some.inj (hf.op_eq.symm.trans hop)
  exact hf

/-! ## Calls -/

namespace Heap

variable {h h' : Heap} {V : Vetting}

/-- The calls of `fs`, the innermost first, wait for one whose window begins at slot `limit`: each
is behind the instruction that made the call, with what that needs on its frame. -/
inductive Calls (V : Vetting) (h : Heap) (us : List Ref) : (fs : List Frame) → (limit : Nat) → Prop
  | nil {limit : Nat} (above : ∀ r ∈ us, limit ≤ h.slotAt r) : Calls V h us [] limit
  | cons {f : Frame} {fs : List Frame} {limit o : Nat} {p : Proto} {w : Window}
      (runs : h.Runs f.closure p)
      (good : V.good p) (arity : 0 ≤ p.arity ∧ p.arity ≤ 255) (chart : V.chart p o = some w)
      (op : p.chunk.op? o = some .call) (ip : f.ip = o + 2)
      (window : limit + p.chunk.pops .call o = f.base + w.height)
      (opened : V.strict → ∀ r ∈ us, f.base ≤ h.slotAt r → h.slotAt r < limit →
        w.opened (h.slotAt r - f.base))
      (below : Calls V h us fs f.base) : Calls V h us (f :: fs) limit

/-- Calls go on to wait while the heap is steady and no further variable below their limit is
captured. -/
theorem Calls.steady {us us' : List Ref} {fs : List Frame} {limit : Nat} (hc : Calls V h us fs limit)
    (hst : h.Steady h') (hs : h.Sound) (hs' : h'.Sound)
    (hlive : ∀ f ∈ fs, h.Live f.closure ∧ h'.Live f.closure)
    (hus : ∀ r ∈ us', h'.slotAt r < limit → r ∈ us ∧ h'.slotAt r = h.slotAt r) :
    Calls V h' us' fs limit := by
  induction hc with
  | nil above =>
    refine .nil fun r hr => Nat.le_of_not_lt fun hlt => ?_
    obtain ⟨hr', heq⟩ := hus r hr hlt
    exact Nat.lt_irrefl _ (Nat.lt_of_lt_of_le (heq ▸ hlt) (above r hr'))
  | @cons f fs limit o p w runs good arity chart op ip window opened below ih =>
    obtain ⟨hl, hl'⟩ := hlive f List.mem_cons_self
    have hroom := (V.fits good arity chart op).room
    refine .cons (runs.steady hst hs hs' hl hl') good arity chart op ip window ?_
      (ih (fun g hg => hlive g (List.mem_cons_of_mem _ hg)) fun r hr hlt => hus r hr (by omega))
    intro hstrict r hr hge hlt
    obtain ⟨hr', heq⟩ := hus r hr hlt
    rw [heq] at hge hlt ⊢
    exact opened hstrict r hr' hge hlt

theorem Calls.line {us : List Ref} {fs : List Frame} {limit : Nat}
    (hc : Calls V h us fs limit) {f : Frame}
    (hf : f ∈ fs) : ∃ p, V.good p ∧ h.Runs f.closure p ∧ f.ip - 1 < p.code.size := by
  induction hc with
  | nil => cases hf
  | @cons g fs limit o p w runs good arity chart op ip window opened below ih =>
    rcases List.mem_cons.1 hf with rfl | hf
    · have hin := (V.fits good arity chart op).inside (fun heq => by cases heq)
      simp only [Chunk.length, Op.width, Proto.chunk] at hin
      exact ⟨p, good, runs, by omega⟩
    · exact ih hf

end Heap

/-! ## Machines -/

namespace Machine

variable {busy' : Ref → Prop} {m' : Machine}

open Heap (idle)

/-- Nothing runs. -/
structure Ready (V : Vetting) (m : Machine) : Prop where
  sound : m.Sound
  vetted : m.heap.Vetted V idle
  frames_eq : m.frames = #[]
  opens_eq : m.openUpvalues = []

/-- The machine can tell where its calls are, and give every open variable its value. -/
structure Standing (V : Vetting) (m : Machine) : Prop where
  sound : m.Sound
  vetted : m.heap.Vetted V idle
  traced : ∀ f ∈ m.frames, ∃ p, V.good p ∧ m.heap.Runs f.closure p ∧ f.ip - 1 < p.code.size
  open_lt : V.strict → ∀ r ∈ m.openUpvalues, m.heap.slotAt r < m.stack.depth

/-- The function `p` runs in the call `f` on top of the calls `below`. Open variables of the call
are in the slots `O`. -/
structure At (V : Vetting) (busy : Ref → Prop) (p : Proto) (f : Frame) (below : Array Frame)
    (O : Nat → Prop) (m : Machine) : Prop where
  sound : m.Sound
  vetted : m.heap.Vetted V busy
  frames_eq : m.frames = below.push f
  runs : m.heap.Runs f.closure p
  good : V.good p
  arity : 0 ≤ p.arity ∧ p.arity ≤ 255
  line : f.ip - 1 < p.code.size
  calls : m.heap.Calls V m.openUpvalues below.toList.reverse f.base
  base_le : f.base ≤ m.stack.depth
  opened : V.strict → ∀ r ∈ m.openUpvalues, f.base ≤ m.heap.slotAt r →
    m.heap.slotAt r < m.stack.depth ∧ O (m.heap.slotAt r - f.base)

/-- The machine is before an instruction, with the window that the chart has for it. -/
def Placed (V : Vetting) (m : Machine) : Prop :=
  ∃ p f below w, m.At V idle p f below w.opened ∧ V.chart p f.ip = some w ∧
    m.stack.depth = f.base + w.height

theorem At.standing {V : Vetting} {p : Proto} {f : Frame} {below : Array Frame} {O : Nat → Prop}
    {m : Machine} (hm : m.At V idle p f below O) : m.Standing V where
  sound := hm.sound
  vetted := hm.vetted
  traced g hg := by
    rw [hm.frames_eq, Array.mem_push] at hg
    rcases hg with hg | rfl
    · exact hm.calls.line (List.mem_reverse.2 (Array.mem_toList_iff.2 hg))
    · exact ⟨p, hm.good, hm.runs, hm.line⟩
  open_lt hstrict r hr := by
    by_cases hge : f.base ≤ m.heap.slotAt r
    · exact (hm.opened hstrict r hr hge).1
    · have := hm.base_le
      omega

namespace At

variable {V : Vetting} {busy : Ref → Prop} {p : Proto} {f : Frame} {below : Array Frame}
  {O : Nat → Prop} {m : Machine} (hm : m.At V busy p f below O)
include hm

theorem live_closure : m.heap.Live f.closure := hm.sound.frames (by rw [hm.frames_eq]; simp)

/-- The heap changes steadily, and open variables are where they were, or in the window of the
call. -/
theorem change {O' : Nat → Prop} (hs : m'.Sound) (hv : m'.heap.Vetted V busy')
    (hst : m.heap.Steady m'.heap) (hframes : m'.frames = m.frames) (hbase : f.base ≤ m'.stack.depth)
    (hus : ∀ r ∈ m'.openUpvalues, m'.heap.slotAt r < f.base →
      r ∈ m.openUpvalues ∧ m'.heap.slotAt r = m.heap.slotAt r)
    (hO : V.strict → ∀ r ∈ m'.openUpvalues, f.base ≤ m'.heap.slotAt r →
      m'.heap.slotAt r < m'.stack.depth ∧ O' (m'.heap.slotAt r - f.base)) :
        m'.At V busy' p f below O' where
  sound := hs
  vetted := hv
  frames_eq := hframes.trans hm.frames_eq
  runs := hm.runs.steady hst hm.sound.heap hs.heap hm.live_closure
    (hs.frames (by rw [hframes, hm.frames_eq]; simp))
  good := hm.good
  arity := hm.arity
  line := hm.line
  calls := by
    refine hm.calls.steady hst hm.sound.heap hs.heap (fun g hg => ?_) hus
    have hg' : g ∈ m.frames := by
      rw [hm.frames_eq, Array.mem_push]
      exact Or.inl (Array.mem_toList_iff.1 (List.mem_reverse.1 hg))
    exact ⟨hm.sound.frames hg', hs.frames (hframes ▸ hg')⟩
  base_le := hbase
  opened := hO

/-- The heap changes steadily, and the stack keeps what is below slot `low`. -/
theorem keepBelow {low : Nat} (hs : m'.Sound)
    (hv : m'.heap.Vetted V busy') (hst : m.heap.Steady m'.heap) (hframes : m'.frames = m.frames)
    (hopens : m'.openUpvalues = m.openUpvalues) (hlow : low ≤ m'.stack.depth) (hbase : f.base ≤ low)
    (hO : V.strict → ∀ i, O i → f.base + i < m.stack.depth → f.base + i < low) :
    m'.At V busy' p f below O := by
  have hslot : ∀ r ∈ m.openUpvalues, m'.heap.slotAt r = m.heap.slotAt r := by
    intro r hr
    obtain ⟨hl, u, hu, -⟩ := hm.sound.opens.upvalue hr
    exact hst.slotAt_eq hl (hs.opens.upvalue (hopens ▸ hr)).1 hu
  refine hm.change hs hv hst hframes (Nat.le_trans hbase hlow) ?_ ?_
  · intro r hr _
    rw [hopens] at hr
    exact ⟨hr, hslot r hr⟩
  · intro hstrict r hr hge
    rw [hopens] at hr
    rw [hslot r hr] at hge ⊢
    obtain ⟨hlt, ho⟩ := hm.opened hstrict r hr hge
    have := hO hstrict _ ho (by omega)
    exact ⟨by omega, ho⟩

theorem keep (hs : m'.Sound) (hv : m'.heap.Vetted V busy')
    (hst : m.heap.Steady m'.heap) (hframes : m'.frames = m.frames)
    (hdepth : m'.stack.depth = m.stack.depth)
    (hopens : m'.openUpvalues = m.openUpvalues) : m'.At V busy' p f below O :=
  hm.keepBelow hs hv hst hframes hopens (Nat.le_of_eq hdepth.symm) hm.base_le fun _ _ _ hlt => hlt

theorem withStack {s : Stack} (hs : Sound { m with stack := s }) (hbase : f.base ≤ s.depth)
    (hO : V.strict → ∀ i, O i → f.base + i < m.stack.depth → f.base + i < s.depth) :
    At V busy p f below O { m with stack := s } :=
  { hm with
    sound := hs
    base_le := hbase
    opened := by
      intro hstrict r hr hge
      obtain ⟨hlt, ho⟩ := hm.opened hstrict r hr hge
      have heq : f.base + (m.heap.slotAt r - f.base) = m.heap.slotAt r := by
        have hge' : f.base ≤ m.heap.slotAt r := hge
        omega
      have := hO hstrict _ ho (heq.symm ▸ hlt)
      exact ⟨heq ▸ this, ho⟩ }

theorem push {v : Value} (hv : m.heap.LiveValue v) :
    At V busy p f below O { m with stack := m.stack.push v } := by
  have := hm.base_le
  refine hm.withStack (hm.sound.push hv) ?_ fun _ i _ hi => ?_
  · rw [Stack.depth_push]
    omega
  · rw [Stack.depth_push]
    omega

theorem cutTo {n : Nat} (hn : n ≤ m.stack.depth) (hbase : f.base ≤ n)
    (hO : V.strict → ∀ i, O i → f.base + i < m.stack.depth → f.base + i < n) :
    At V busy p f below O { m with stack := m.stack.cutTo n } :=
  hm.withStack (hm.sound.cutTo hn) hbase hO

theorem put (i : Nat) {v : Value} (hv : m.heap.LiveValue v) :
    At V busy p f below O { m with stack := m.stack.put i v } :=
  hm.withStack (hm.sound.put i hv) hm.base_le fun _ _ _ hi => hi

theorem withGlobals {t : Table Value} (hs : Sound { m with globals := t }) :
    At V busy p f below O { m with globals := t } :=
  { hm with sound := hs }

theorem narrow {O' : Nat → Prop} (hO : V.strict → ∀ i, O i → f.base + i < m.stack.depth → O' i) :
    m.At V busy p f below O' :=
  { hm with
    opened := by
      intro hstrict r hr hge
      obtain ⟨hlt, ho⟩ := hm.opened hstrict r hr hge
      exact ⟨hlt, hO hstrict _ ho (by omega)⟩ }

end At

end Machine

end Parlance
