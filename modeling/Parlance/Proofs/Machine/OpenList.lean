/-
  The list of open variables, whatever code runs.
-/
import Parlance.Proofs.Machine.Endings

namespace Parlance

-- no statement here looks into compilations or collections
attribute [local irreducible] compileTokens Heap.collect

namespace Heap

variable {h h' : Heap} {r : Ref} {i : Nat}

theorem slotAt_of_openSlot? (hi : h.openSlot? r = some i) : h.slotAt r = i := by
  obtain ⟨u, hu, -, rfl⟩ := openSlot?_eq_some hi
  exact slotAt_eq hu

theorem size_le_of_moves (hm : Relation.ReflTransGen Move h h') : h.cells.size ≤ h'.cells.size := by
  induction hm with
  | refl => exact Nat.le_refl _
  | tail _ hmove ih =>
    refine Nat.le_trans ih ?_
    cases hmove with
    | intern roots text =>
      unfold intern
      dsimp only
      split
      · exact Nat.le_refl _
      · exact (openSlot?_allocate _ roots _).2.1
    | allocate roots => exact (openSlot?_allocate _ roots _).2.1
    | change => simp [setObject]
    | collect roots => exact Nat.le_of_eq (sameOpen_collect _ roots).size_eq.symm
    | note message => exact Nat.le_of_eq (agrees_note _ message).toTwin.size_eq.symm

end Heap

namespace Machine

variable {m m' m'' : Machine} {r x : Ref} {us : List Ref} {last : Nat} {host : Host}

/-- The list of open variables has each of them once, the highest slot first. -/
structure Ordered (m : Machine) : Prop where
  mem_iff : ∀ r, r ∈ m.openUpvalues ↔ (m.heap.openSlot? r).isSome
  falling : m.openUpvalues.Pairwise fun r x => m.heap.slotAt x < m.heap.slotAt r

/-- Of the variables that are open in `m`, those that stand for slots from `last` on are closed in
`m'`, each over the value in its slot. All other objects are as they were, and so is the rest of the
machine. -/
structure ClosedFrom (last : Nat) (m m' : Machine) : Prop where
  closed : ∀ {r i}, m.heap.openSlot? r = some i → last ≤ i →
    ∃ v, m.stack.get? i = some v ∧ m'.heap.object? r = some (.upvalue ⟨false, i, v⟩)
  others : ∀ {r}, (∀ i, m.heap.openSlot? r = some i → i < last) → m'.heap.object? r = m.heap.object? r
  list_eq : m'.openUpvalues = m.openUpvalues.filter (m.heap.slotAt · < last)
  rest_eq : m' = { m with heap := m'.heap, openUpvalues := m'.openUpvalues }

/-- From `m` on the list came to be in order in `m'`. What is open was so before, or is new. -/
structure Orders (m m' : Machine) : Prop where
  ordered : m'.Ordered
  size_le : m.heap.cells.size ≤ m'.heap.cells.size
  opens : ∀ {r i}, m'.heap.openSlot? r = some i → m.heap.openSlot? r = some i ∨
    m.heap.cells.size ≤ r.serial

/-- Closing goes on after the first variable of the list. -/
theorem ClosedFrom.cons {u : Upvalue} {v : Value} (hus : m.openUpvalues = r :: us)
    (hu : m.heap.object? r = some (.upvalue u))
    (hopen : u.isOpen = true) (hv : m.stack.get? u.slot = some v) (hle : last ≤ u.slot)
    (hlt : ∀ x ∈ us, m.heap.slotAt x < m.heap.slotAt r) (hc : ClosedFrom last { m with
      heap := m.heap.setObject r (.upvalue { u with isOpen := false, closed := v })
      openUpvalues := us } m') : m.ClosedFrom last m' := by
  have hobj := Heap.object?_close hu v
  have hslot : m.heap.openSlot? r = some u.slot := by
    simp [Heap.openSlot?_eq hu, Object.openSlot?, hopen]
  have hne : ∀ {x}, r ≠ x →
    (m.heap.setObject r (.upvalue { u with isOpen := false, closed := v })).openSlot? x =
      m.heap.openSlot? x := fun hx => by
    unfold Heap.openSlot?
    rw [hobj, if_neg hx]
  refine ⟨fun {x i} hi hge => ?_, fun {x} hx => ?_, ?_, hc.rest_eq⟩
  · by_cases hrx : r = x
    · subst hrx
      cases hslot.symm.trans hi
      refine ⟨v, hv, (hc.others fun i hi => ?_).trans ((hobj r).trans (if_pos rfl))⟩
      rw [Heap.openSlot?_eq ((hobj r).trans (if_pos rfl))] at hi
      cases hi
    · exact hc.closed ((hne hrx).trans hi) hge
  · have hrx : r ≠ x := by
      rintro rfl
      have := hx _ hslot
      omega
    exact (hc.others fun i hi => hx i ((hne hrx).symm.trans hi)).trans ((hobj x).trans (if_neg hrx))
  · have hr : ¬ m.heap.slotAt r < last := by rw [Heap.slotAt_eq hu]; omega
    rw [hc.list_eq, hus, List.filter_cons_of_neg (by simpa using hr)]
    refine List.filter_congr fun x hx => ?_
    have hrx : r ≠ x := by
      rintro rfl
      exact Nat.lt_irrefl _ (hlt _ hx)
    rw [Heap.slotAt_congr ((hobj x).trans (if_neg hrx))]

theorem Orders.refl (hm : m.Ordered) : m.Orders m := ⟨hm, Nat.le_refl _, Or.inl⟩

theorem Orders.trans (h1 : m.Orders m') (h2 : m'.Orders m'') : m.Orders m'' where
  ordered := h2.ordered
  size_le := Nat.le_trans h1.size_le h2.size_le
  opens hi := (h2.opens hi).elim h1.opens fun hle => Or.inr (Nat.le_trans h1.size_le hle)

namespace Ordered

variable (hm : m.Ordered)
include hm

theorem openSlot?_of_mem (hr : r ∈ m.openUpvalues) : m.heap.openSlot? r = some (m.heap.slotAt r) := by
  obtain ⟨i, hi⟩ := Option.isSome_iff_exists.1 ((hm.mem_iff r).1 hr)
  rw [hi, Heap.slotAt_of_openSlot? hi]

theorem tethered : m.Tethered :=
  ⟨hm.mem_iff, hm.falling.imp fun hlt heq => by rw [heq] at hlt; exact Nat.lt_irrefl _ hlt⟩

/-- A slot has one open variable at most. -/
theorem eq_of_openSlot? {i : Nat} (hr : m.heap.openSlot? r = some i)
    (hx : m.heap.openSlot? x = some i) : r = x := by
  have hmem : ∀ {y}, m.heap.openSlot? y = some i → y ∈ m.openUpvalues :=
    fun hy => (hm.mem_iff _).2 (by rw [hy]; rfl)
  have hnodup : (m.openUpvalues.map m.heap.slotAt).Nodup :=
    List.pairwise_map.2 (hm.falling.imp Nat.ne_of_gt)
  refine List.inj_on_of_nodup_map hnodup (hmem hr) (hmem hx) ?_
  rw [Heap.slotAt_of_openSlot? hr, Heap.slotAt_of_openSlot? hx]

theorem keeps (hopens : m'.openUpvalues = m.openUpvalues) (hslots : m.heap.Opened m'.heap)
    (hsize : m.heap.cells.size ≤ m'.heap.cells.size) : m.Orders m' := by
  refine ⟨⟨fun r => by rw [hopens, hslots, hm.mem_iff], ?_⟩, hsize, fun hi =>
    Or.inl ((hslots _).symm.trans hi)⟩
  have hslot : ∀ {y}, y ∈ m.openUpvalues → m'.heap.slotAt y = m.heap.slotAt y := fun hy =>
    Heap.slotAt_of_openSlot? ((hslots _).trans (hm.openSlot?_of_mem hy))
  rw [hopens]
  refine hm.falling.imp_of_mem fun hr hx hlt => ?_
  rwa [hslot hr, hslot hx]

/-- **Capturing** finds the variable of the slot, or puts a new one in its place. -/
theorem capture (slot : Nat) : ∃ r m', Exec.capture slot m = .ok r m' ∧ m.Orders m' := by
  have hup : ∀ r ∈ m.openUpvalues, ∃ u, m.heap.object? r = some (.upvalue u) := fun r hr => by
    obtain ⟨u, hu, -⟩ := Heap.openSlot?_eq_some (hm.openSlot?_of_mem hr)
    exact ⟨u, hu⟩
  rcases Exec.capture_split slot hup hm.falling with
    ⟨r, -, -, heq⟩ | ⟨above, others, hlist, habove, hothers, heq⟩
  · exact ⟨r, m, heq, .refl hm⟩
  refine ⟨_, _, heq, ?_⟩
  obtain ⟨hfresh, hsize, hslots⟩ := m.heap.openSlot?_allocate m.roots (.upvalue ⟨true, slot, .nul⟩)
  have hgains := hm.tethered.gains.capture hlist (Heap.openSlot?_of_size_le hfresh) hslots
  generalize m.heap.allocate m.roots (.upvalue ⟨true, slot, .nul⟩) = made at hfresh hsize hslots hgains
  obtain ⟨r, h'⟩ := made
  refine ⟨⟨hgains.tethered.mem_iff, ?_⟩, hsize, fun {x i} hi => ?_⟩
  · have hr : h'.slotAt r = slot := Heap.slotAt_of_openSlot? ((hslots r).trans (if_pos rfl))
    have hold : ∀ {x}, x ∈ above ++ others → h'.slotAt x = m.heap.slotAt x := fun hx =>
      Heap.slotAt_of_openSlot? (hgains.opens (hm.openSlot?_of_mem (hlist ▸ hx)))
    have hfalling : (above ++ others).Pairwise fun r x => h'.slotAt x < h'.slotAt r := by
      refine (hlist.symm ▸ hm.falling).imp_of_mem fun hr hx hlt => ?_
      rwa [hold hr, hold hx]
    obtain ⟨ha, ho, hao⟩ := List.pairwise_append.1 hfalling
    refine List.pairwise_append.2 ⟨ha, List.pairwise_cons.2 ⟨fun x hx => ?_, ho⟩, fun x hx y hy => ?_⟩
    · rw [hr, hold (List.mem_append_right _ hx)]
      exact hothers x hx
    · rcases List.mem_cons.1 hy with rfl | hy
      · rw [hr, hold (List.mem_append_left _ hx)]
        exact habove x hx
      · exact hao x hx y hy
  · rw [hslots] at hi
    split at hi
    · rename_i hx
      exact Or.inr (hx ▸ hfresh)
    · exact Or.inl hi

theorem close_first (hus : m.openUpvalues = r :: us) {u : Upvalue}
    (hu : m.heap.object? r = some (.upvalue u)) {v : Value}
    (hv : m.stack.get? u.slot = some v) : m.Orders { m with
      heap := m.heap.setObject r (.upvalue { u with isOpen := false, closed := v })
      openUpvalues := us } := by
  have hshuts := hm.tethered.shuts_first hus hu hv
  have hopens : ∀ {x i},
    (m.heap.setObject r (.upvalue { u with isOpen := false, closed := v })).openSlot? x = some i →
      m.heap.openSlot? x = some i := by
    intro x i hi
    unfold Heap.openSlot? at hi ⊢
    rw [Heap.object?_close hu] at hi
    split at hi
    · cases hi
    · exact hi
  refine ⟨⟨hshuts.tethered.mem_iff, ?_⟩, by simp [Heap.setObject], fun hi => Or.inl (hopens hi)⟩
  have hfalling := hm.falling
  rw [hus] at hfalling
  refine (List.pairwise_cons.1 hfalling).2.imp_of_mem fun ha hb hlt => ?_
  have hslot : ∀ {x}, x ∈ us →
    (m.heap.setObject r (.upvalue { u with isOpen := false, closed := v })).slotAt x =
      m.heap.slotAt x := fun {x} hx => by
    obtain ⟨i, hi⟩ := Option.isSome_iff_exists.1 ((hshuts.tethered.mem_iff x).1 hx)
    rw [Heap.slotAt_of_openSlot? hi, Heap.slotAt_of_openSlot? (hopens hi)]
  rwa [hslot ha, hslot hb]

/-- **Closing** goes on down to the slot, or to a fault. -/
theorem closeList (last : Nat) (us : List Ref) (hus : m.openUpvalues = us) : ∃ m', m.Orders m' ∧
    ((Exec.closeList last us m = .ok () m' ∧ m.ClosedFrom last m') ∨ ∃ e, Exec.closeList last us m =
      .error e m') := by
  induction us generalizing m with
  | nil =>
    refine ⟨m, .refl hm, .inl ⟨rfl, fun hi _ => ?_, fun _ => rfl, by simp [hus], rfl⟩⟩
    have hmem := (hm.mem_iff _).2 (by rw [hi]; rfl)
    rw [hus] at hmem
    cases hmem
  | cons r us ih =>
    have hslot := hm.openSlot?_of_mem (hus ▸ List.mem_cons_self)
    obtain ⟨u, hu, hopen, hslot'⟩ := Heap.openSlot?_eq_some hslot
    have hfalling := hm.falling
    rw [hus, List.pairwise_cons] at hfalling
    rw [Exec.closeList, Exec.run_bind (Exec.upvalue_eq hu)]
    by_cases hle : last ≤ u.slot
    · rw [if_pos hle, Exec.run_bind (x := get) rfl]
      cases hv : m.stack.get? u.slot with
      | none => exact ⟨m, .refl hm, .inr ⟨_, rfl⟩⟩
      | some v =>
        have hfirst := hm.close_first hus hu hv
        rw [Exec.run_bind (x := Exec.need (some v)) rfl, Exec.run_bind (x := Exec.setObject r _) rfl,
          Exec.run_bind (x := modify _) rfl]
        obtain ⟨m', horders, hend⟩ := ih hfirst.ordered rfl
        refine ⟨m', hfirst.trans horders, hend.imp_left fun h =>
          ⟨h.1, h.2.cons hus hu hopen hv hle hfalling.1⟩⟩
    · rw [if_neg hle]
      have hbelow : ∀ x ∈ m.openUpvalues, m.heap.slotAt x < last := fun x hx => by
        rw [hus] at hx
        rcases List.mem_cons.1 hx with rfl | hx
        · omega
        · have := hfalling.1 x hx
          omega
      refine ⟨m, .refl hm, .inl ⟨rfl, fun {x i} hi hge => ?_, fun _ => rfl, ?_, rfl⟩⟩
      · have := hbelow x ((hm.mem_iff x).2 (by rw [hi]; rfl))
        rw [Heap.slotAt_of_openSlot? hi] at this
        omega
      · exact (List.filter_eq_self.2 fun x hx => decide_eq_true (hbelow x hx)).symm

end Ordered

end Machine

/-! ## Turns -/

namespace Exec

variable {α : Type} {m : Machine} {x : Exec α} {host : Host}

/-- Keeping the list of open variables in order is a custom. -/
def ordering : Custom := ⟨fun m m' => m.Ordered → m.Orders m', fun _ => True⟩

theorem obeysFrom_ordering (h : m.Ordered → ∃ m', m.Orders m' ∧
      ((∃ a, x m = .ok a m') ∨ ∃ e, x m = .error e m')) :
    x.ObeysFrom ordering m := by
  unfold ObeysFrom
  by_cases hm : m.Ordered
  · obtain ⟨m', horders, ⟨a, hx⟩ | ⟨e, hx⟩⟩ := h hm
    · exact hx ▸ fun _ => horders
    · exact hx ▸ ⟨trivial, fun _ => horders⟩
  · cases x m with
    | ok a m' => exact fun h => (hm h).elim
    | error e m' => exact ⟨trivial, fun h => (hm h).elim⟩

/-- What leaves the open variables alone, and acts on the heap by moves, keeps the list in order. -/
theorem obeys_ordering (hkeeps : ∀ m, x.Holds Machine.Keeps m) (hmoves : Obeys moving x) :
    Obeys ordering x := by
  refine ⟨fun m => obeysFrom_ordering fun hm => ?_⟩
  have hk := hkeeps m
  have hsize := hmoves.run m
  unfold Holds at hk
  unfold ObeysFrom at hsize
  cases hx : x m with
  | ok a m' =>
    rw [hx] at hk hsize
    exact ⟨m', hm.keeps hk.opens_eq hk.opened (Heap.size_le_of_moves hsize), .inl ⟨a, rfl⟩⟩
  | error e m' =>
    rw [hx] at hk hsize
    cases e with
    | failed e => exact hk.elim
    | fault f =>
      exact ⟨m', hm.keeps hk.opens_eq hk.opened (Heap.size_le_of_moves hsize.2), .inr ⟨_, rfl⟩⟩

theorem obeys_ordering_of_calm [hcalm : Obeys calm x] [hmoves : Obeys moving x] : Obeys ordering x :=
  obeys_ordering (fun m => ((inferInstance : Calm x).run m).mono (·.toKeeps)) hmoves

instance toil_ordering : Toil ordering where
  refl _ := .refl
  trans h1 h2 hm := (h1 hm).trans (h2 (h1 hm).ordered)
  fault := trivial
  jumpTo _ := obeys_ordering_of_calm
  note _ := obeys_ordering_of_calm
  readClock := obeys_ordering_of_calm
  drawNumber := obeys_ordering_of_calm
  intern _ := obeys_ordering_of_calm
  allocate htext hnot :=
    @obeys_ordering_of_calm _ _ (Law.allocate htext hnot) (Law.allocate htext hnot)
  aside hheap hopens hm := hm.keeps hopens (fun _ => by rw [hheap]) (Nat.le_of_eq (by rw [hheap]))
  change ho _ _ _ hslot hm := hm.keeps rfl (Heap.opened_setObject ho hslot) (by simp [Heap.setObject])
  closeFrom last := ⟨fun m => obeysFrom_ordering fun hm => by
    obtain ⟨m', horders, hend⟩ := hm.closeList last m.openUpvalues rfl
    exact ⟨m', horders, hend.imp_left fun hrun => ⟨_, hrun.1⟩⟩⟩
  capture slot := ⟨fun m => obeysFrom_ordering fun hm => by
    obtain ⟨r, m', hrun, horders⟩ := hm.capture slot
    exact ⟨m', horders, .inl ⟨r, hrun⟩⟩⟩

instance lenient_ordering : Lenient ordering := ⟨fun _ => trivial⟩

instance obeysHost_ordering [hspares : SparesHost host] [hmoves : MovesHost host] :
    ObeysHost ordering host where
  routine r hr name vs :=
    obeys_ordering (hspares.routine r hr name vs) (hmoves.routine r hr name vs).obeys

theorem Obeys.ordered {m' : Machine} (hx : Obeys ordering x) (hm : m.Ordered)
    (hrun : (∃ a, x m = .ok a m') ∨ ∃ e, x m = .error e m') : m.Orders m' := by
  have h := hx.run m
  unfold ObeysFrom at h
  rcases hrun with ⟨a, hok⟩ | ⟨e, herror⟩
  · rw [hok] at h
    exact h hm
  · rw [herror] at h
    exact h.2 hm

end Exec

/-! ## Runs -/

namespace Machine

variable {m m₁ m' : Machine} {host : Host} {file : String} {r : Ref}

theorem Clean.ordered (hm : m.Clean) : m.Ordered :=
  ⟨hm.tethered.mem_iff, hm.opens_eq ▸ List.Pairwise.nil⟩

theorem Clean.begin (hm : m.Clean) (hbegin : m.begin file r = (.ok (), m₁)) : m.Orders m₁ := by
  have hfile : Machine.Ordered { m with file } := ⟨hm.ordered.mem_iff, hm.ordered.falling⟩
  unfold Machine.begin EStateM.run at hbegin
  cases hx : (Exec.start r) { m with file } with
  | ok _ m1 =>
    rw [hx] at hbegin
    cases hbegin
    have horders :=
      (inferInstance : Exec.Obeys Exec.ordering (Exec.start r)).ordered hfile (.inl ⟨_, hx⟩)
    exact ⟨horders.ordered, horders.size_le, horders.opens⟩
  | error e m1 =>
    rw [hx] at hbegin
    cases e <;> cases hbegin

theorem During.orders [SparesHost host] [Exec.MovesHost host] (hm : m.Ordered)
    (hd : During host m m') : m.Orders m' := by
  induction hd with
  | start => exact .refl hm
  | turn _ taken ih =>
    exact ih.trans
      ((inferInstance : Exec.Obeys Exec.ordering (Exec.step host)).ordered ih.ordered
      (.inl ⟨_, taken⟩))
  | asked _ ih => exact ⟨⟨ih.ordered.mem_iff, ih.ordered.falling⟩, ih.size_le, ih.opens⟩

/-- **The list of open variables is in order** between runs, between the turns of a run of any
function, and where a turn ends early. It falls strictly by slots, so that no slot has two open
variables, and has exactly the variables that are open and were made since the run began, when none
was open. Closing from a slot on, if it comes to an end, closes what stands for slots from there on,
each over the value in its slot, and nothing else changes. -/
theorem open_list_ordered [SparesHost host] [Exec.MovesHost host] :
    (∀ {m : Machine}, m.Kept host → m.Ordered) ∧
    (∀ {m m₁ m' : Machine} {file : String} {r : Ref}, m.Clean → m.begin file r = (.ok (), m₁) →
      During host m₁ m' → m'.Ordered ∧
      (∀ x, x ∈ m'.openUpvalues ↔ (m'.heap.openSlot? x).isSome ∧ m.heap.cells.size ≤ x.serial) ∧
      ∀ {e m''}, (Exec.step host) m' = .error e m'' → m''.Ordered) ∧
    ∀ {m : Machine}, m.Ordered →
      (∀ {r x i}, m.heap.openSlot? r = some i → m.heap.openSlot? x = some i → r = x) ∧
      ∀ {last m'}, Exec.closeFrom last m = .ok () m' → m.ClosedFrom last m' ∧ m'.Ordered := by
  refine ⟨fun hm => hm.clean.ordered, fun {m m₁ m' file r} hm hbegin hd => ?_, fun {m} hm =>
    ⟨hm.eq_of_openSlot?, fun {last m'} hclose => ?_⟩⟩
  · have hbegun := hm.begin hbegin
    have horders := hbegun.trans (hd.orders hbegun.ordered)
    refine ⟨horders.ordered, fun x => ?_, fun herror => ?_⟩
    · rw [horders.ordered.mem_iff, iff_self_and]
      intro hopen
      obtain ⟨i, hi⟩ := Option.isSome_iff_exists.1 hopen
      refine (horders.opens hi).resolve_left fun hi' => ?_
      have hmem := (hm.ordered.mem_iff x).2 (by rw [hi']; rfl)
      rw [hm.opens_eq] at hmem
      cases hmem
    · exact ((inferInstance : Exec.Obeys Exec.ordering (Exec.step host)).ordered horders.ordered
        (.inr ⟨_, herror⟩)).ordered
  · obtain ⟨m1, horders, ⟨hrun, hc⟩ | ⟨e, hrun⟩⟩ := hm.closeList last m.openUpvalues rfl
    · cases hclose.symm.trans hrun
      exact ⟨hc, horders.ordered⟩
    · cases hclose.symm.trans hrun

end Machine

/-- A function that captures slot 0 and then slot 1. -/
def crossedFunction : Proto where
  code := #[Op.pushTrue.toByte, Op.closure.toByte, 0, 1, 0, 1, 1, Op.pushNul.toByte, Op.return.toByte]
  lines := Array.replicate 9 1
  constants := [.function { upvalueCount := 2, code := #[Op.return.toByte], lines := #[1] }]

/-- Its variables after two turns, and what closing from slot 1 on makes of them. -/
def crossedCloses : Bool :=
  match ((Machine.new {}).load crossedFunction).2.begin ""
    ((Machine.new {}).load crossedFunction).1 with
  | (.ok (), m₁) =>
    match (Exec.step Native.builtinLibrary.host) m₁ with
    | .ok .running m₂ =>
      match (Exec.step Native.builtinLibrary.host) m₂ with
      | .ok .running m' =>
        match Exec.closeFrom 1 m' with
        | .ok _ m'' => match m'.openUpvalues.map m'.heap.openSlot?,
            m'.openUpvalues.map m''.heap.object? with
          | [some 1, some 0],
              [some (.upvalue ⟨false, 1, .bool true⟩), some (.upvalue ⟨true, 0, .nul⟩)] => true
          | _, _ => false
        | _ => false
      | _ => false
    | _ => false
  | _ => false

/-- The variable of slot 1 comes first in the list. It is closed over `vrai` when slots are given up
from 1 on. -/
theorem open_list_crossed :
    ∃ (m m₁ m' m'' : Machine) (r : Ref), m.Clean ∧ m.begin "" r = (.ok (), m₁) ∧
    Machine.During Native.builtinLibrary.host m₁ m' ∧ Exec.closeFrom 1 m' = .ok () m'' ∧
      m'.Ordered ∧ m'.ClosedFrom 1 m'' ∧
    m'.openUpvalues.map m'.heap.openSlot? = [some 1, some 0] ∧
    m'.openUpvalues.map m''.heap.object? =
      [some (.upvalue ⟨false, 1, .bool true⟩), some (.upvalue ⟨true, 0, .nul⟩)] := by
  have hends : crossedCloses = true := by decide +kernel
  unfold crossedCloses at hends
  have hclean : ((Machine.new {}).load crossedFunction).2.Clean :=
    (Machine.clean_new {}).load crossedFunction
  obtain ⟨-, hduring, hclosing⟩ := @Machine.open_list_ordered Native.builtinLibrary.host _ _
  split at hends
  case h_2 => cases hends
  rename_i m₁ hbegin
  split at hends
  case h_2 => cases hends
  rename_i m₂ htaken
  split at hends
  case h_2 => cases hends
  rename_i m' htaken'
  have hd := (Machine.During.start.turn htaken).turn htaken'
  have hordered := (hduring hclean hbegin hd).1
  split at hends
  case h_2 => cases hends
  rename_i m'' hclose
  split at hends
  case h_2 => cases hends
  rename_i hslots hobjects
  exact ⟨_, _, _, _, _, hclean, hbegin, hd, hclose, hordered, ((hclosing hordered).2 hclose).1,
    hslots, hobjects⟩

end Parlance
