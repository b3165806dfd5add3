/-
  Captured variables as shared cells.
-/
import Parlance.Proofs.Parallel.Collections

namespace Parlance

variable {h1 h2 : Heap} {m : Machine} {v : Value} {x : Ref} {u : Upvalue}

-- no statement about runs looks into compilations
attribute [local irreducible] compileTokens

/-- What a cell holds. -/
def Heap.held (h : Heap) : Value → Value
  | .object r => match h.object? r with
    | some (.upvalue u) => u.closed
    | _ => .object r
  | v => v

/-- Every slot of the stack is a cell of the heap. -/
def Slots.cells : Slots where
  view h s := s.toList.map h.held
  push v := do
    -- the value is in use while its cell is made
    Exec.push v
    let r ← Exec.allocate (.upvalue ⟨false, 0, v⟩)
    modify fun m => { m with stack := m.stack.put (m.stack.depth - 1) (.object r) }
  pop := Slots.popOf fun h s => s.toList.map h.held
  peek := Slots.peekOf fun h s => s.toList.map h.held
  top := Slots.topOf fun h s => s.toList.map h.held
  read := Slots.slotOf fun h s => s.toList.map h.held
  write i v := do
    match (← get).stack.get? i with
    | some (.object r) =>
      let u ← Exec.upvalue r
      Exec.setObject r (.upvalue { u with closed := v })
    | _ => Exec.fault
  capture i := do
    match (← get).stack.get? i with
    | some (.object r) => pure r
    | _ => Exec.fault
  readShared r := do pure (← Exec.upvalue r).closed
  writeShared r v := do
    let u ← Exec.upvalue r
    Exec.setObject r (.upvalue { u with closed := v })
  closeFrom _ := pure ()

namespace Heap

variable {h h' : Heap} {r x : Ref} {v : Value}

theorem held_upvalue (hr : h.object? r = some (.upvalue u)) : h.held (.object r) = u.closed := by
  simp [held, hr]

theorem held_congr (heq : ∀ r, v = .object r → h'.object? r = h.object? r) : h'.held v = h.held v := by
  cases v with
  | object r => simp [held, heq r rfl]
  | _ => rfl

end Heap

theorem Slots.cells_lawful : Slots.cells.Lawful where
  read_eq _ := rfl
  peek_eq _ := rfl
  pop_eq := rfl
  top_eq _ := rfl
  length hm := by
    simp only [Slots.values, Slots.cells, List.length_map]
    exact hm.length_stack
  reach {m r} hm hr := by
    obtain ⟨v, hv, heq⟩ := List.mem_map.1 hr
    cases v with
    | object x =>
      have hroot : m.heap.Reach m.roots.refs x := .root (Machine.mem_refs.2 (Or.inl hv))
      simp only [Heap.held] at heq
      split at heq
      · rename_i u hu
        exact .step hroot hu (Heap.mem_children_closed.2 heq)
      · cases heq
        exact hroot
    | _ => cases heq
  cutTo hn := by simp only [Slots.cells, Stack.toList_cutTo hn, List.map_take]
  evolves {m h} hm he := by
    refine List.map_congr_left fun v hv => Heap.held_congr ?_
    rintro r rfl
    have hroot := Machine.mem_refs.2 (Or.inl hv)
    exact he.object_eq (hm.roots hroot) (he.live_of_mem hroot)
  setClosure {h s r f g us vs} hr := by
    refine List.map_congr_left fun v _ => ?_
    cases v with
    | object x =>
      by_cases heq : r = x
      · subst heq
        simp [Heap.held, Heap.object?_setObject_self hr, hr]
      · simp [Heap.held, Heap.object?_setObject_of_ne heq]
    | _ => rfl

/-- A slot has been added, with a new cell for its value. -/
structure Slots.Filled (v : Value) (m : Machine) (x : Ref) (h : Heap) (t : Stack) : Prop where
  sound : Machine.Sound { m with heap := h, stack := t }
  toList_eq : t.toList = m.stack.toList ++ [.object x]
  evolves : m.heap.Evolves [] h
  fresh : m.heap.cells.size ≤ x.serial
  object_new : h.object? x = some (.upvalue ⟨false, 0, v⟩)
  object_eq : ∀ {y}, .object y ∈ m.stack.toList → h.object? y = m.heap.object? y

theorem Slots.Filled.values_eq {h : Heap} {t : Stack} (hf : Filled v m x h t) :
    Slots.cells.values { m with heap := h, stack := t } = Slots.cells.values m ++ [v] := by
  simp only [Slots.values, Slots.cells, hf.toList_eq, List.map_append, List.map_cons, List.map_nil,
    Heap.held_upvalue hf.object_new]
  congr 1
  refine List.map_congr_left fun y hy => Heap.held_congr ?_
  rintro z rfl
  exact hf.object_eq hy

theorem Slots.exists_filled (hm : m.Sound) (hv : m.heap.LiveValue v) :
    ∃ x h t, Slots.cells.push v m = .ok () { m with heap := h, stack := t } ∧ Filled v m x h t := by
  have hpushed := hm.push hv
  have hlist := Stack.toList_push hm.depth_le v
  have hroot : ∀ {y}, Value.object y ∈ m.stack.toList ++ [v] →
      y ∈ (Machine.roots { m with stack := m.stack.push v }).refs := fun hy =>
    Machine.mem_refs.2 (Or.inl (hlist ▸ hy))
  have ha := hpushed.allocated (o := .upvalue ⟨false, 0, v⟩) (by simp) fun y hy =>
    .root (hroot (List.mem_append_right _ (List.mem_singleton.2 (Heap.mem_children_closed.1 hy).symm)))
  generalize heq : m.heap.allocate (Machine.roots { m with stack := m.stack.push v })
    (.upvalue ⟨false, 0, v⟩) = p at ha
  obtain ⟨x, h⟩ := p
  have hno : m.heap.AddsNoOpen h := ha.addsNoOpen (by simp)
  refine ⟨x, h, (m.stack.push v).put m.stack.depth (.object x), ?_, ?_⟩
  · have hrun : Exec.allocate (.upvalue ⟨false, 0, v⟩) { m with stack := m.stack.push v } =
        .ok x { m with heap := h, stack := m.stack.push v } :=
      Exec.allocate_run (m := { m with stack := m.stack.push v }) heq
    simp only [Slots.cells]
    rw [Exec.run_bind (x := Exec.push v) rfl, Exec.run_bind hrun]
    show EStateM.Result.ok () _ = _
    simp only [Stack.depth_push, Nat.add_sub_cancel]
  · exact
      { sound := (hpushed.evolves ha.toEvolves hno).put m.stack.depth ha.live_new
        toList_eq := by
          rw [Stack.toList_put, hlist, ← hm.length_stack, List.set_append_right _ _ (Nat.le_refl _),
            Nat.sub_self, List.set_cons_zero]
        evolves := { ha.toEvolves with kept := fun hr => ha.kept (hr.mono (by simp)) }
        fresh := ha.fresh
        object_new := ha.object_new
        object_eq := fun hy =>
          ha.object_eq (hm.stack hy) (ha.live_of_mem (hroot (List.mem_append_left _ hy))) }

/-- How open variables and cells correspond. Cells from slot `c` on belong to variables that have
been closed. -/
structure Joined (c : Option Nat) (β : Pairing) (s t : Scene) : Prop where
  opens : t.opens = []
  cell : ∀ {v}, v ∈ t.stack.toList → ∃ x u, v = .object x ∧ t.heap.object? x = some (.upvalue u)
  apart : t.stack.toList.Nodup
  /-- An open variable and its frame share the cell. -/
  shared : ∀ {r}, r ∈ s.opens → s.heap.slotAt r < t.stack.depth →
    ∃ x, t.stack.get? (s.heap.slotAt r) = some (.object x) ∧ β r x
  /-- Nothing else shares it. -/
  own : ∀ {i : Nat} {x a}, t.stack.get? i = some (.object x) → (∀ last ∈ c, i < last) → β a x →
    s.heap.Live a → a ∈ s.opens ∧ s.heap.slotAt a = i

/-- Variables are kept on the stack on the left, and in cells on the right. -/
def Bond.cells : Bond where
  right := .cells
  kin :=
    { vars := fun β u x => u.isOpen = true ∨ u.closed.Alike β x.closed
      mono := fun hle _ _ h => h.imp id (.mono hle) }
  strict := True
  joins := Joined

theorem Heap.Alike.setRight {K : Kinship} {β : Pairing} {p : Object} (ha : h1.Alike K β h2)
    (hp : ∀ {a}, β a x → h1.Live a → ∃ o, h1.object? a = some o ∧ o.Alike K β p) :
    h1.Alike K β (h2.setObject x p) := by
  refine ha.changed (Nat.le_refl _) (by simp [Heap.setObject]) (fun _ => id)
    (fun _ => (Heap.live_setObject ..).1)
    fun {a b} hab hl hr => ?_
  obtain ⟨o, q, ho, hq, hoq⟩ := ha.object hab hl ((Heap.live_setObject ..).1 hr)
  by_cases heq : x = b
  · subst heq
    obtain ⟨o', ho', hop⟩ := hp hab hl
    exact ⟨o', p, ho', Heap.object?_setObject_self hq p, hop⟩
  · exact ⟨o, q, ho, (Heap.object?_setObject_of_ne heq p).trans hq, hoq⟩

theorem map_eq_set {α γ : Type} {f g : α → γ} {l : List α} (hl : l.Nodup) {i : Nat} {a : α}
    (ha : l[i]? = some a) (hne : ∀ b ∈ l, b ≠ a → f b = g b) : l.map f = (l.map g).set i (f a) := by
  refine List.ext_getElem? fun j => ?_
  rw [List.getElem?_map, List.getElem?_set]
  split
  · rename_i hij
    subst hij
    have hlt : i < (l.map g).length := by
      rw [List.length_map]
      exact (List.getElem?_eq_some_iff.1 ha).1
    rw [ha, if_pos hlt]
    rfl
  · rename_i hij
    rw [List.getElem?_map]
    cases hb : l[j]? with
    | none => rfl
    | some b =>
      have hba : b ≠ a := by
        rintro rfl
        exact hij ((List.getElem?_inj (List.getElem?_eq_some_iff.1 ha).1 hl).1 (ha.trans hb.symm))
      rw [Option.map_some, Option.map_some, hne b (List.mem_of_getElem? hb) hba]

theorem Heap.slotAt_setUpvalue {h : Heap} {r : Ref} {u y : Upvalue}
    (hu : h.object? r = some (.upvalue u))
    (hy : y.slot = u.slot) (a : Ref) : (h.setObject r (.upvalue y)).slotAt a = h.slotAt a := by
  by_cases heq : r = a
  · subst heq
    rw [slotAt_eq (object?_setObject_self hu _), slotAt_eq hu, hy]
  · exact slotAt_congr (object?_setObject_of_ne heq _)

theorem Machine.Sound.setCell {r : Ref} (hm : m.Sound) (hopens : m.openUpvalues = [])
    (hl : m.heap.Live r) (hu : m.heap.object? r = some (.upvalue u)) (hv : m.heap.LiveValue v) :
    Sound { m with heap := m.heap.setObject r (.upvalue { u with closed := v }) } := by
  have hclosed : u.isOpen = false := by
    by_contra hopen
    have hmem := hm.opens.all hl hu (by simpa using hopen)
    rw [hopens] at hmem
    cases hmem
  exact hm.setClosed hu hclosed hv

theorem Heap.Alike.setLeft {K : Kinship} {β : Pairing} {a : Ref} {o : Object} (ha : h1.Alike K β h2)
    (ho : ∀ {x}, β a x → h1.Live a → h2.Live x → ∃ p, h2.object? x = some p ∧ o.Alike K β p) :
    (h1.setObject a o).Alike K β h2 := by
  refine ha.changed (by simp [Heap.setObject]) (Nat.le_refl _) (fun _ => (Heap.live_setObject ..).1)
    (fun _ => id)
    fun {b x} hbx hl hr => ?_
  rw [Heap.live_setObject] at hl
  obtain ⟨q, p, hq, hp, hqp⟩ := ha.object hbx hl hr
  by_cases heq : a = b
  · subst heq
    obtain ⟨p', hp', hop⟩ := ho hbx hl hr
    exact ⟨o, p', Heap.object?_setObject_self hq o, hp', hop⟩
  · exact ⟨q, p, (Heap.object?_setObject_of_ne heq o).trans hq, hp, hqp⟩

variable {c : Option Nat} {β β' : Pairing} {m1 m2 : Machine} {r s : Ref} {v w : Value} {i : Nat}

theorem Joined.cell_setObject {a b : Scene} (hj : Joined c β a b) {u y : Upvalue}
    (hx : b.heap.object? x = some (.upvalue u)) (hv : v ∈ b.stack.toList) :
    ∃ z w, v = .object z ∧ (b.heap.setObject x (.upvalue y)).object? z = some (.upvalue w) := by
  obtain ⟨z, w, rfl, hz⟩ := hj.cell hv
  by_cases heq : x = z
  · subst heq
    exact ⟨x, _, rfl, Heap.object?_setObject_self hx _⟩
  · exact ⟨z, w, rfl, (Heap.object?_setObject_of_ne heq _).trans hz⟩

/-- Objects change on both sides; variables keep their slots, cells are still cells, and only what
is about to go is closed. -/
theorem Joined.changed {a b : Scene} (hj : Joined c β a b) {us : List Ref}
    (hslots : ∀ r, h1.slotAt r = a.heap.slotAt r) (hlive : ∀ {r}, h1.Live r → a.heap.Live r)
    (hcell : ∀ {v}, v ∈ b.stack.toList → ∃ x u, v = .object x ∧ h2.object? x = some (.upvalue u))
    (hopens : ∀ {r}, r ∈ us → r ∈ a.opens)
    (hclosed : ∀ {r}, r ∈ a.opens → (∀ last ∈ c, a.heap.slotAt r < last) → r ∈ us) :
    Joined c β ⟨h1, a.stack, us⟩ ⟨h2, b.stack, b.opens⟩ where
  opens := hj.opens
  cell := hcell
  apart := hj.apart
  shared hr hlt := by
    dsimp only at hlt ⊢
    rw [hslots] at hlt ⊢
    exact hj.shared (hopens hr) hlt
  own hi hc hax hla := by
    dsimp only
    rw [hslots]
    obtain ⟨hmem, rfl⟩ := hj.own hi hc hax (hlive hla)
    exact ⟨hclosed hmem hc, rfl⟩

namespace Machine.Alike

variable {x : Ref}

section

variable (hm : m1.Alike .cells c β m2)
include hm

theorem joins :
    Joined c β ⟨m1.heap, m1.stack, m1.openUpvalues⟩ ⟨m2.heap, m2.stack, m2.openUpvalues⟩ :=
  hm.joined

theorem opens_nil : m2.openUpvalues = [] := hm.joins.opens

theorem cell_get? (hi : i < m2.stack.depth) :
    ∃ x u, m2.stack.get? i = some (.object x) ∧ m2.heap.Live x ∧
    m2.heap.object? x = some (.upvalue u) := by
  obtain ⟨v, hv⟩ := Stack.get?_of_lt hm.sound₂.depth_le hi
  have hlive := Exec.live_of_get? hm.sound₂ hv
  rw [← Stack.getElem?_toList] at hv
  obtain ⟨x, u, rfl, hu⟩ := hm.joins.cell (List.mem_of_getElem? hv)
  rw [Stack.getElem?_toList] at hv
  exact ⟨x, u, hv, hlive, hu⟩

theorem share_cell (hx : m2.stack.get? i = some (.object x))
    (hu : m2.heap.object? x = some (.upvalue u)) :
    ∃ v, m1.stack.get? i = some v ∧ m1.Shares β m2 v u.closed := by
  have hrel := forall₂_getElem? hm.values i
  simp only [Slots.values, Bond.cells, Slots.cells, List.getElem?_map, Stack.getElem?_toList, hx,
    Option.map_some, Heap.held_upvalue hu] at hrel
  generalize hv : m1.stack.get? i = o at hrel
  cases hrel with
  | some hvw =>
    have hl := Exec.live_of_get? hm.sound₂ hx
    exact ⟨_, rfl, hvw, Exec.live_of_get? hm.sound₁ hv, Exec.liveValue_closed hm.sound₂ hl hu⟩

/-! ### Cells take values -/

theorem setCell (hc : ∀ last ∈ c, i < last) (hx : m2.stack.get? i = some (.object x))
    (hu : m2.heap.object? x = some (.upvalue u)) (hvw : m1.Shares β m2 v w) :
    Alike .cells c β { m1 with stack := m1.stack.put i v }
      { m2 with heap := m2.heap.setObject x (.upvalue { u with closed := w }) } := by
  have hj := hm.joins
  have hl := Exec.live_of_get? hm.sound₂ hx
  have hself := Heap.object?_setObject_self hu (.upvalue { u with closed := w })
  exact { hm with
    sound₁ := hm.sound₁.put i hvw.left
    sound₂ := hm.sound₂.setCell hm.opens_nil hl hu hvw.right
    heap := hm.heap.setRight fun hax hla => by
      obtain ⟨hmem, -⟩ := hj.own hx hc hax hla
      obtain ⟨-, y, hy, hopen⟩ := hm.sound₁.opens.upvalue hmem
      exact ⟨_, hy, .upvalue (Or.inl hopen)⟩
    depth := hm.depth
    values := by
      have hview : m2.stack.toList.map (m2.heap.setObject x (.upvalue { u with closed := w })).held =
          (m2.stack.toList.map m2.heap.held).set i w := by
        rw [map_eq_set hj.apart (a := .object x) ((Stack.getElem?_toList ..).trans hx)
          (g := m2.heap.held), Heap.held_upvalue hself]
        intro b _ hb
        refine Heap.held_congr ?_
        rintro y rfl
        exact Heap.object?_setObject_of_ne (fun heq => hb (congrArg Value.object heq.symm)) _
      simp only [Slots.values, Bond.cells, Slots.cells, Stack.toList_put, hview]
      exact forall₂_set hm.values i hvw.alike
    joined :=
      { opens := hj.opens
        cell := hj.cell_setObject hu
        apart := hj.apart
        shared := hj.shared
        own := hj.own } }

end

theorem setOwn (hm : m1.Alike .cells none β m2) (hrs : m1.Pairs β m2 r s) {u x : Upvalue}
    (hu : m1.heap.object? r = some (.upvalue u)) (hx : m2.heap.object? s = some (.upvalue x))
    (hclosed : u.isOpen = false) (hvw : m1.Shares β m2 v w) :
    Alike .cells none β { m1 with heap := m1.heap.setObject r (.upvalue { u with closed := v }) }
      { m2 with heap := m2.heap.setObject s (.upvalue { x with closed := w }) } := by
  have hj := hm.joins
  -- the cells of the stack belong to open variables
  have hoff : ∀ i, m2.stack.get? i ≠ some (.object s) := fun i hi =>
    hm.sound₁.opens.not_mem hu hclosed (hj.own hi (by simp) hrs.paired hrs.left).1
  have hslots : ∀ a, (m1.heap.setObject r (.upvalue { u with closed := v })).slotAt a =
    m1.heap.slotAt a := fun a =>
    Heap.slotAt_setUpvalue (y := { u with closed := v }) hu rfl a
  exact { hm with
    sound₁ := hm.sound₁.setClosed hu hclosed hvw.left
    sound₂ := hm.sound₂.setCell hm.opens_nil hrs.right hx hvw.right
    heap := hm.heap.setObject hrs.paired hrs.left hrs.right (.upvalue (Or.inr hvw.alike))
    depth := hm.depth
    values := by
      have hview : m2.stack.toList.map (m2.heap.setObject s (.upvalue { x with closed := w })).held =
          m2.stack.toList.map m2.heap.held := by
        refine List.map_congr_left fun b hb => Heap.held_congr ?_
        rintro y rfl
        obtain ⟨i, hi⟩ := List.getElem?_of_mem hb
        rw [Stack.getElem?_toList] at hi
        refine Heap.object?_setObject_of_ne ?_ _
        rintro rfl
        exact hoff i hi
      simp only [Slots.values, Bond.cells, Slots.cells, hview]
      exact hm.values
    joined := hj.changed hslots (Heap.live_setObject ..).1 (hj.cell_setObject hx) id fun hmem _ =>
      hmem }

theorem set_along (hm : m1.Alike .cells none β m2) (hvw : m1.Shares β m2 v w) (i : Nat) :
    Exec.Along .cells β (Exec.setSlot i v) (Slots.cells.write i w) m1 m2 (Exec.Still .cells) := by
  have hdepth := hm.depth
  by_cases hi : i < m1.stack.depth
  · obtain ⟨x, u, hx, hl, hu⟩ := hm.cell_get? (hdepth ▸ hi)
    have hright : Slots.cells.write i w m2 = .ok ()
        { m2 with heap := m2.heap.setObject x (.upvalue { u with closed := w }) } := by
      simp only [Slots.cells]
      rw [Exec.run_bind (x := get) rfl, hx]
      exact Exec.run_bind (Exec.upvalue_eq hu)
    exact .of_ok (Exec.setSlot_eq v hi) hright (fun h => h) (hm.setCell (by simp) hx hu hvw)
  · have hnone : m2.stack.get? i = none := by
      rw [Stack.get?, if_neg (hdepth ▸ hi)]
    have hleft : Exec.setSlot i v m1 = .error (.fault .machine) m1 := by
      show (if i < m1.stack.depth then (modify _ : Exec Unit) else Exec.fault) m1 = _
      rw [if_neg hi]
      rfl
    have hright : Slots.cells.write i w m2 = .error (.fault .machine) m2 := by
      simp only [Slots.cells]
      rw [Exec.run_bind (x := get) rfl, hnone]
      rfl
    unfold Exec.Along Exec.Sync
    rw [hleft, hright]
    exact ⟨rfl, β, fun h => h, hm⟩

section

variable (hm : m1.Alike .cells none β m2)
include hm

/-- While a variable is open, its partner is the cell of its slot. -/
theorem open_cell (hrs : m1.Pairs β m2 r s) (hu : m1.heap.object? r = some (.upvalue u))
    (hopen : u.isOpen = true) (hclear : m1.Clear m1.stack.depth) :
    m2.stack.get? u.slot = some (.object s) := by
  have hmem := hm.sound₁.opens.all hrs.left hu hopen
  have hslot : m1.heap.slotAt r = u.slot := Heap.slotAt_eq hu
  have hlt : m1.heap.slotAt r < m2.stack.depth := hm.depth ▸ hclear r hmem
  obtain ⟨x, hx, hrx⟩ := hm.joins.shared hmem hlt
  rw [hslot] at hx
  have hxs : x = s := hm.heap.left hrx hrs.paired hrs.left (Exec.live_of_get? hm.sound₂ hx) hrs.right
  exact hxs ▸ hx

theorem read_cell (hrs : m1.Pairs β m2 r s) (hclear : m1.Clear m1.stack.depth) :
    Exec.Reads (Exec.readUpvalue r) (Slots.cells.readShared s) m1 m2 (m1.Shares β m2) := by
  unfold Exec.readUpvalue
  simp only [Slots.cells]
  refine .bind (hm.upvalue hrs) ?_
  rintro u x ⟨hkin, hu, hx⟩
  split
  · rename_i hopen
    obtain ⟨v, hv, hshare⟩ := hm.share_cell (hm.open_cell hrs hu hopen hclear) hx
    exact .get_bind (.ok (by rw [hv]; rfl) rfl hshare)
  · rename_i hclosed
    exact .pure ⟨hkin.resolve_left hclosed, Exec.liveValue_closed hm.sound₁ hrs.left hu,
      Exec.liveValue_closed hm.sound₂ hrs.right hx⟩

theorem write_cell (hrs : m1.Pairs β m2 r s) (hvw : m1.Shares β m2 v w)
    (hclear : m1.Clear m1.stack.depth) :
    Exec.Along .cells β (Exec.writeUpvalue r v) (Slots.cells.writeShared s w) m1 m2
    (Exec.Still .cells) := by
  unfold Exec.writeUpvalue
  simp only [Slots.cells]
  refine (hm.upvalue hrs).sync_bind hm ?_
  rintro u x ⟨hkin, hu, hx⟩
  split
  · rename_i hopen
    have hcell := hm.open_cell hrs hu hopen hclear
    have hlt : u.slot < m1.stack.depth := hm.depth ▸ Stack.lt_of_get? hcell
    exact .of_ok (Exec.setSlot_eq v hlt) rfl (fun h => h) (hm.setCell (by simp) hcell hx hvw)
  · rename_i hclosed
    exact .of_ok rfl rfl (fun h => h) (hm.setOwn hrs hu hx (by simpa using hclosed) hvw)

theorem capture_cell (hi : i < m1.stack.depth) :
    Exec.Along .cells β (Exec.capture i) (Slots.cells.capture i) m1 m2 fun β' r s n1 n2 =>
      n1.Alike .cells none β' n2 ∧ n1.Pairs β' n2 r s ∧ n2 = m2 ∧ n1.stack = m1.stack ∧
      n1.frames = m1.frames ∧ m1.heap.Steady n1.heap := by
  have hj := hm.joins
  obtain ⟨x, y, hx, hlx, hy⟩ := hm.cell_get? (hm.depth ▸ hi)
  have hright : Slots.cells.capture i m2 = .ok x m2 := by
    simp only [Slots.cells]
    rw [Exec.run_bind (x := get) rfl, hx]
    rfl
  obtain ⟨r, n1, hleft, hcase⟩ := Exec.capture_cases i hm.sound₁
  cases hcase with
  | known hmem hslot =>
    obtain ⟨x', hx', hrx⟩ := hj.shared hmem (hslot.symm ▸ hm.depth ▸ hi)
    dsimp only at hx'
    rw [hslot, hx] at hx'
    cases hx'
    exact .of_ok hleft hright (fun h => h) ⟨hm, ⟨hrx, (hm.sound₁.opens.upvalue hmem).1, hlx⟩, rfl,
      rfl, rfl, .refl _⟩
  | @fresh h above others hsplit habove hothers ha =>
    have hle := @Pairing.le_add β r x
    have hold : ∀ {a b}, β a b → h.Live a → m1.heap.Live a ∧ h.slotAt a = m1.heap.slotAt a :=
      fun hab hla => by
      obtain ⟨hl, heq⟩ := ha.old hla (hm.heap.bound hab).1
      exact ⟨hl, Heap.slotAt_congr heq⟩
    have hmem : ∀ {a}, a ∈ above ++ r :: others ↔ a = r ∨ a ∈ m1.openUpvalues := fun {a} => by
      rw [← hsplit]
      simp only [List.mem_append, List.mem_cons]
      exact or_left_comm
    have hslot : h.slotAt r = i := Heap.slotAt_eq ha.object_new
    have hjoined : Joined none (β.add r x) ⟨h, m1.stack, above ++ r :: others⟩
      ⟨m2.heap, m2.stack, m2.openUpvalues⟩ :=
      { opens := hj.opens
        cell := hj.cell
        apart := hj.apart
        shared := fun {a} hmema hlt => by
          dsimp only at hlt ⊢
          rcases hmem.1 hmema with rfl | hmema
          · exact ⟨x, hslot.symm ▸ hx, β.add_self a x⟩
          · rw [hm.sound₁.slotAt_evolves ha.toEvolves hmema] at hlt ⊢
            obtain ⟨z, hz, haz⟩ := hj.shared hmema hlt
            exact ⟨z, hz, hle haz⟩
        own := fun {j z a} hz hc haz hla => by
          dsimp only at hz ⊢
          rcases haz with haz | ⟨rfl, rfl⟩
          · obtain ⟨hl, heq⟩ := hold haz hla
            obtain ⟨hmema, hslota⟩ := hj.own hz hc haz hl
            exact ⟨hmem.2 (Or.inr hmema), heq.trans hslota⟩
          · rw [← Stack.getElem?_toList] at hx hz
            have hij := (List.getElem?_inj (List.getElem?_eq_some_iff.1 hx).1 hj.apart).1
              (hx.trans hz.symm)
            exact ⟨hmem.2 (Or.inl rfl), hslot.trans hij⟩ }
    refine .of_ok hleft hright hle ⟨?_, ⟨β.add_self r x, ha.live_new, hlx⟩, rfl, rfl, rfl,
      ha.toEvolves.steady⟩
    exact { hm with
      sound₁ := hm.sound₁.evolvesTo ha.toEvolves
        (Exec.Capture.opens hm.sound₁ hsplit habove hothers ha)
      heap := by
        have hkept : m2.heap.Evolves [] m2.heap := .refl hm.sound₂.heap (by simp)
        refine (hm.heap.evolves ha.toEvolves hkept).add ha.live_new.lt hlx.lt ha.object_new hy
          (.upvalue (Or.inl rfl)) ?_ ?_
        · exact fun hrz _ _ => absurd (hm.heap.bound hrz).1 (Nat.not_lt.2 ha.fresh)
        · intro a hax hla _
          obtain ⟨hmema, hslota⟩ := hj.own hx (by simp) hax (hold hax hla).1
          -- no open variable has the slot, so nothing shares its cell
          exact (Exec.Capture.slotAt_ne hsplit habove hothers hmema hslota).elim
      values := hm.values.imp fun _ _ => .mono hle
      frames := hm.frames.imp fun _ _ => .mono hle
      globals := hm.globals.imp fun _ _ hk hv => ⟨hk.mono hle, hv.mono hle⟩
      joined := hjoined }

end

/-! ### Slots are given up -/

theorem closeHead {last : Nat} (hm : m1.Alike .cells (some last) β m2) {us : List Ref}
    (hus : m1.openUpvalues = r :: us) (hu : m1.heap.object? r = some (.upvalue u))
    (hlast : last ≤ u.slot) (hlt : u.slot < m1.stack.depth) (hv : m1.stack.get? u.slot = some v) :
    Alike .cells (some last) β
      { m1 with heap := m1.heap.setObject r (.upvalue { u with
        isOpen := false, closed := v }), openUpvalues := us }
      m2 := by
  have hj := hm.joins
  have hopens : m1.heap.Opens (r :: us) := hus ▸ hm.sound₁.opens
  have hmem : r ∈ m1.openUpvalues := hus ▸ List.mem_cons_self
  have hslot : m1.heap.slotAt r = u.slot := Heap.slotAt_eq hu
  have hslots : ∀ a, (m1.heap.setObject r (.upvalue { u with isOpen := false, closed := v })).slotAt
    a =
      m1.heap.slotAt a := fun a =>
    Heap.slotAt_setUpvalue (y := { u with isOpen := false, closed := v }) hu rfl a
  have hclosed : ∀ {a}, a ∈ m1.openUpvalues → (∀ l ∈ some last, m1.heap.slotAt a < l) → a ∈ us :=
    fun {a} ha hc => by
    rw [hus] at ha
    rcases List.mem_cons.1 ha with rfl | ha
    · have := hc last rfl
      omega
    · exact ha
  exact { hm with
    sound₁ := hm.sound₁.setUpvalue hu (Exec.live_of_get? hm.sound₁ hv) (hopens.close rfl)
    heap := by
      refine hm.heap.setLeft fun {x} hrx hl hlx => ?_
      obtain ⟨y, hy, hry⟩ :=
        hj.shared hmem (show m1.heap.slotAt r < m2.stack.depth by rw [hslot, ← hm.depth]; exact hlt)
      dsimp only at hy
      rw [hslot] at hy
      have hyx : y = x := hm.heap.left hry hrx hl (Exec.live_of_get? hm.sound₂ hy) hlx
      subst hyx
      obtain ⟨z, w, heq, hw⟩ := hj.cell (Stack.mem_of_get? hy)
      cases heq
      obtain ⟨v', hv', hshare⟩ := hm.share_cell hy hw
      rw [hv] at hv'
      cases hv'
      exact ⟨_, hw, .upvalue (Or.inr hshare.alike)⟩
    joined := hj.changed hslots (Heap.live_setObject ..).1 hj.cell
      (fun ha => hus ▸ List.mem_cons_of_mem _ ha) hclosed }

/-- Open variables get values of their own on the left. Cells have theirs. -/
theorem closeList_cell {last : Nat} (us : List Ref) (hm : m1.Alike .cells (some last) β m2)
    (hus : m1.openUpvalues = us)
    (hclear : m1.Clear m1.stack.depth) : ∃ n1, Exec.closeList last us m1 = .ok () n1 ∧
      n1.Alike .cells (some last) β m2 ∧ n1.stack = m1.stack ∧ n1.frames = m1.frames ∧
      (∀ {x}, m1.heap.Live x → n1.heap.Live x) ∧ n1.Clear last := by
  induction us generalizing m1 with
  | nil =>
    refine ⟨m1, rfl, hm, rfl, rfl, id, fun r hr => ?_⟩
    rw [hus] at hr
    cases hr
  | cons r us ih =>
    have hopens : m1.heap.Opens (r :: us) := hus ▸ hm.sound₁.opens
    obtain ⟨hl, u, hu, -⟩ := hopens.upvalue List.mem_cons_self
    have hslot : m1.heap.slotAt r = u.slot := Heap.slotAt_eq hu
    have hlt : u.slot < m1.stack.depth := hslot ▸ hclear r (hus ▸ List.mem_cons_self)
    rw [Exec.closeList, Exec.run_bind (Exec.upvalue_eq hu)]
    by_cases hlast : last ≤ u.slot
    · obtain ⟨v, hv⟩ := Stack.get?_of_lt hm.sound₁.depth_le hlt
      have hclosed := hm.closeHead hus hu hlast hlt hv
      obtain ⟨n1, hrun, hn, hstack, hframes, hlive, hdone⟩ := ih hclosed rfl fun a ha => by
        rw [Heap.slotAt_setUpvalue (y := { u with isOpen := false, closed := v }) hu rfl a]
        exact hclear a (hus ▸ List.mem_cons_of_mem _ ha)
      refine ⟨n1, ?_, hn, hstack, hframes, fun h => hlive ((Heap.live_setObject ..).2 h), hdone⟩
      rw [if_pos hlast, Exec.run_bind (x := get) rfl, hv]
      exact hrun
    · rw [if_neg hlast]
      exact ⟨m1, rfl, hm, rfl, rfl, id, fun a ha => hopens.lt_of_head (by omega) (hus ▸ ha)⟩

/-! ### Slots are filled -/

theorem push_cell (hm : m1.Alike .cells none β m2) (hvw : m1.Shares β m2 v w)
    (hclear : m1.Clear m1.stack.depth) {h : Heap} {t : Stack} (hf : Slots.Filled w m2 x h t) :
    Alike .cells none β { m1 with stack := m1.stack.push v } { m2 with heap := h, stack := t } := by
  have hj := hm.joins
  have hdepth : t.depth = m2.stack.depth + 1 := by
    rw [← hf.sound.length_stack, hf.toList_eq, List.length_append, hm.sound₂.length_stack]
    rfl
  have hold : ∀ {j : Nat}, j < m2.stack.depth → t.get? j = m2.stack.get? j := fun {j} hj => by
    rw [← Stack.getElem?_toList, hf.toList_eq, ← Stack.getElem?_toList, List.getElem?_append_left]
    rwa [hm.sound₂.length_stack]
  have hjoined : Joined none β ⟨m1.heap, m1.stack.push v, m1.openUpvalues⟩ ⟨h, t, m2.openUpvalues⟩ :=
    { opens := hj.opens
      cell := fun {y} hy => by
        dsimp only at hy ⊢
        rw [hf.toList_eq, List.mem_append, List.mem_singleton] at hy
        rcases hy with hy | rfl
        · obtain ⟨z, u, rfl, hu⟩ := hj.cell hy
          exact ⟨z, u, rfl, (hf.object_eq hy).trans hu⟩
        · exact ⟨x, _, rfl, hf.object_new⟩
      apart := by
        dsimp only
        rw [hf.toList_eq]
        refine List.nodup_append.2 ⟨hj.apart, List.pairwise_singleton .., ?_⟩
        rintro y hy _ hz rfl
        rw [List.mem_singleton] at hz
        subst hz
        exact absurd (Heap.Live.lt (hm.sound₂.stack hy)) (Nat.not_lt.2 hf.fresh)
      shared := fun {a} hmem _ => by
        have hlt : m1.heap.slotAt a < m2.stack.depth := hm.depth ▸ hclear a hmem
        obtain ⟨y, hy, hay⟩ := hj.shared hmem hlt
        exact ⟨y, (hold hlt).trans hy, hay⟩
      own := fun {i y a} hy hc hay hla => by
        dsimp only at hy
        by_cases hi : i < m2.stack.depth
        · exact hj.own ((hold hi).symm.trans hy) hc hay hla
        · have hlast : i = m2.stack.depth := by
            have := Stack.lt_of_get? hy
            omega
          rw [← Stack.getElem?_toList, hf.toList_eq, hlast, ← hm.sound₂.length_stack,
            List.getElem?_concat_length] at hy
          cases hy
          exact absurd (hm.heap.bound hay).2 (Nat.not_lt.2 hf.fresh) }
  have hkept : m1.heap.Evolves [] m1.heap := .refl hm.sound₁.heap (by simp)
  exact { hm with
    sound₁ := hm.sound₁.push hvw.left
    sound₂ := hf.sound
    heap := hm.heap.evolves hkept hf.evolves
    depth := by rw [hdepth, Stack.depth_push, hm.depth]
    values := by
      have hleft : Slots.stack.values { m1 with stack := m1.stack.push v } =
        Slots.stack.values m1 ++ [v] :=
        Stack.toList_push hm.sound₁.depth_le v
      show List.Forall₂ _ (Slots.stack.values _) (Slots.cells.values _)
      rw [hleft, hf.values_eq]
      exact forall₂_concat hm.values hvw.alike
    joined := hjoined }

end Machine.Alike

/-- **Cells keep what the machine's own variables keep.** -/
theorem Bond.cells_lawful : Bond.cells.Lawful where
  right := Slots.cells_lawful
  evolves {c β β' m1 m2 h1 h2} hm he1 he2 hle hheap hnew := by
    have hj := hm.joins
    have hlive : ∀ {x}, Value.object x ∈ m2.stack.toList → h2.Live x := fun hx =>
      he2.live_of_mem (Machine.mem_refs.2 (Or.inl hx))
    have hsame2 : ∀ {x}, Value.object x ∈ m2.stack.toList → h2.object? x = m2.heap.object? x :=
      fun hx => he2.object_eq (hm.sound₂.stack hx) (hlive hx)
    exact
      { opens := hj.opens
        cell := fun hv => by
          obtain ⟨x, u, rfl, hu⟩ := hj.cell hv
          exact ⟨x, u, rfl, (hsame2 hv).trans hu⟩
        apart := hj.apart
        shared := fun {r} hr hlt => by
          dsimp only at hlt ⊢
          rw [hm.sound₁.slotAt_evolves he1 hr] at hlt ⊢
          obtain ⟨x, hx, hrx⟩ := hj.shared hr hlt
          exact ⟨x, hx, hle hrx⟩
        own := fun {i x a} hx hc hax hla => by
          have hmem : Value.object x ∈ m2.stack.toList := Stack.mem_of_get? hx
          rcases hnew hax hla with hab | hnot
          · obtain ⟨hl, heq⟩ := he1.old hla (hm.heap.bound hab).1
            obtain ⟨hmema, hslot⟩ := hj.own hx hc hab hl
            exact ⟨hmema, (Heap.slotAt_congr heq).trans hslot⟩
          · -- the partner of a cell is a variable
            obtain ⟨z, u, hz, hu⟩ := hj.cell hmem
            cases hz
            obtain ⟨o, p, ho, hp, hop⟩ := hheap.object hax hla (hlive hmem)
            rw [hsame2 hmem, show m2.heap.object? x = _ from hu] at hp
            cases hp
            cases hop
            exact (hnot _ ho).elim }
  setClosure {c β m1 m2 a b f g us vs} us' vs' f' g' hm ha hb := by
    have hj := hm.joins
    have hslots : ∀ r, (m1.heap.setObject a (.closure f' us')).slotAt r = m1.heap.slotAt r :=
      fun r => by
      by_cases heq : a = r
      · subst heq
        simp [Heap.slotAt, Heap.object?_setObject_self ha, ha]
      · exact Heap.slotAt_congr (Heap.object?_setObject_of_ne heq _)
    refine hj.changed hslots (Heap.live_setObject ..).1 (fun hv => ?_) id fun hmem _ => hmem
    obtain ⟨x, u, rfl, hu⟩ := hj.cell hv
    refine ⟨x, u, rfl, (Heap.object?_setObject_of_ne ?_ _).trans hu⟩
    rintro rfl
    rw [show m2.heap.object? b = _ from hu] at hb
    cases hb
  cutTo {c β m1 m2 n} hm hn hc := by
    have hj := hm.joins
    have hn2 : n ≤ m2.stack.depth := hm.depth ▸ hn
    have hlist := Stack.toList_cutTo hn2
    have hget : ∀ {i}, i < n → (m2.stack.cutTo n).get? i = m2.stack.get? i := fun {i} hi => by
      rw [← Stack.getElem?_toList, hlist, List.getElem?_take_of_lt hi, Stack.getElem?_toList]
    exact
      { opens := hj.opens
        cell := fun hv => hj.cell (List.mem_of_mem_take (hlist ▸ hv))
        apart := by
          dsimp only
          rw [hlist]
          exact hj.apart.sublist (List.take_sublist _ _)
        shared := fun {r} hr hlt => by
          obtain ⟨x, hx, hrx⟩ := hj.shared hr (Nat.lt_of_lt_of_le hlt hn2)
          exact ⟨x, (hget hlt).trans hx, hrx⟩
        own := fun {i x a} hx _ hax hla => by
          have hi : i < n := Stack.lt_of_get? hx
          exact hj.own ((hget hi).symm.trans hx)
            (fun last hlast => Nat.lt_of_lt_of_le hi (hc last hlast)) hax hla }
  push {β m1 m2 v w} hm hvw hclear := by
    obtain ⟨x, h, t, hrun, hf⟩ := Slots.exists_filled hm.sound₂ hvw.right
    exact ⟨_, _, rfl, hrun, hm.push_cell hvw (hclear trivial) hf,
      ⟨Stack.toList_push hm.sound₁.depth_le v, rfl, rfl, .refl hm.sound₁.heap (by simp)⟩,
      ⟨hf.values_eq, rfl, rfl, hf.evolves⟩⟩
  set hm hvw := hm.set_along hvw _
  capture {β m1 m2 i} hm hi := by
    refine (hm.capture_cell (hi trivial)).mono ?_
    rintro β' r s n1 n2 - ⟨hn, hrs, rfl, hstack, hframes, hsteady⟩
    exact ⟨hn, hrs, ⟨congrArg Stack.toList hstack, rfl⟩, ⟨hframes, rfl⟩, by rw [hstack], hsteady⟩
  read hm hrs hclear := hm.read_cell hrs (hclear trivial)
  write hm hrs hvw hclear := hm.write_cell hrs hvw (hclear trivial)
  closeFrom {β m1 m2 last} hm hclear := by
    have hweak : m1.Alike .cells (some last) β m2 :=
      { hm with joined := { hm.joins with own := fun hx _ => hm.joins.own hx (by simp) } }
    obtain ⟨n1, hrun, hn, hstack, hframes, hlive, hdone⟩ := hweak.closeList_cell _ rfl (hclear trivial)
    exact .of_ok (x := Exec.closeFrom last) hrun rfl (fun h => h)
      ⟨hn, ⟨hstack, rfl⟩, ⟨hframes, rfl⟩, hlive, id, hdone⟩
  abandon hlax := (hlax trivial).elim

/-! ## Sessions -/

/-- The functions that the compiler makes, among natives that the host can be trusted with and that
cannot tell cells from the machine's own variables. -/
noncomputable def Vetting.unaware (host : Host) : Vetting :=
  Vetting.sound.trusting host Bond.cells.Blind

/-- A source, or a native that is unaware of cells. -/
def Request.Unaware (host : Host) : Request → Prop
  | .native name arity code => (Vetting.unaware host).native ⟨name, arity, some code⟩
  | .source .. => True
  | .image .. => False

theorem Native.unaware_builtin {i : Nat} {b : Native.Builtin} (hb : Native.builtins[i]? = some b)
    (name : String) :
    (Request.native name b.function.signature.arguments.length i).Unaware
      Native.builtinLibrary.host := by
  have hmem := List.mem_of_getElem? hb
  exact Vetting.trusts_of_tame (V := .sound) (P := Bond.cells.Blind) (Native.host_builtin hb)
    (Native.builtins_tame hmem).routine
    (Native.HostFunction.Blind.routine Bond.cells_lawful (Native.builtins_blind hmem) _)

theorem Request.Unaware.takes {host : Host} {q : Request} (hq : q.Unaware host) :
    (Vetting.unaware host).Takes q := by
  cases q with
  | native name arity code => exact hq
  | source file text reported => exact fun _ hp => (compileTokens_spec hp).1
  | image file bytes reported => exact hq.elim

/-- **Captured variables are shared cells.** A machine that gives every slot a cell of the heap of
its own, made when the slot is filled and shared by the frame and by every closure that captures the
slot, answers every session as the machine does, failures and traces included. It prints and reports
the same text, and ends with the same globals, of the same types and with the same texts. -/
theorem variables_shared (host : Host) (turns : Nat) (settings : Settings) (clock : Nat)
    (seed : UInt64) (requests : List Request) (unaware : ∀ q ∈ requests, q.Unaware host) :
    let s := Machine.session { Machine.new settings with clock, seed } host turns requests
    let t := Machine.session { Machine.new settings with clock, seed } host turns requests Slots.cells
    s.1 = t.1 ∧ s.2.out = t.2.out ∧ s.2.reports = t.2.reports ∧
    s.2.shownGlobals = t.2.shownGlobals := by
  exact Bond.cells_lawful.session_new (Vetting.sound.hosts_trusting host Bond.cells.Blind)
    Vetting.Trusts.property (fun _ => trivial) settings settings.heap clock seed
    (fun _ _ =>
      { opens := rfl
        cell := fun hv => by cases hv
        apart := .nil
        shared := fun hr => by cases hr
        own := fun _ _ h => h.elim })
    turns fun q hq => (unaware q hq).takes

/-- Two closures share a parameter, and outlive a call that fails. -/
def sharingSource : String :=
  "var lire; var ecrire;
fonction paire(x) \x7b
  fonction l() \x7b retourner x; \x7d
  fonction e(y) \x7b x = y; \x7d
  lire = l; ecrire = e; x = texte(x); nul();
\x7d
paire(faux);"

/-- A run that fails after a closure has escaped, and one that uses it. -/
def sharingRequests : List Request :=
  [.native "texte" 1 14, .source "faute" sharingSource true,
    .source "suite" "afficher lire(); ecrire(vrai); afficher lire();" true]

theorem variables_shared_escaping : (∀ q ∈ sharingRequests, q.Unaware Native.builtinLibrary.host) ∧
    (Machine.session (Machine.new {}) Native.builtinLibrary.host 1000 sharingRequests).2.out =
      ((Machine.new {}).session Native.builtinLibrary.host 1000 sharingRequests
        Slots.cells).2.out := by
  have hunaware : ∀ q ∈ sharingRequests, q.Unaware Native.builtinLibrary.host := by
    simp only [sharingRequests, List.forall_mem_cons]
    exact ⟨Native.unaware_builtin (i := 14) rfl "texte", trivial, trivial, by simp⟩
  exact ⟨hunaware, (variables_shared _ 1000 {} 0 0x2545F4914F6CDD1D _ hunaware).2.1⟩

end Parlance
