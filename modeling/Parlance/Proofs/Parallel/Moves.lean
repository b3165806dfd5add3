/-
  The moves of two machines side by side.
-/
import Parlance.Proofs.Parallel.Bond

namespace Parlance

variable {B : Bond} {c : Option Nat} {β β' : Pairing} {m1 m2 : Machine} {v w : Value} {m : Machine}

theorem rel_of_eq {α : Type} {o o' : Option α} (h : o = o') : Option.Rel (· = ·) o o' := by
  subst h
  cases o with
  | none => exact .none
  | some a => exact .some rfl

/-- Where it matters, all open variables lie below `limit`. -/
abbrev Bond.Clears (B : Bond) (m : Machine) (limit : Nat) : Prop := B.strict → m.Clear limit

/-- A key of a global is a string of the heap. -/
def Heap.Names (h : Heap) (k : Symbol) : Prop :=
  h.Live k.ref ∧ h.object? k.ref = some (.text k.text k.hash)

namespace Machine

variable {r : Ref}

/-- The closure is called. -/
def Calls (m : Machine) (closure : Ref) : Prop := ∃ f ∈ m.frames, f.closure = closure

/-- What the function refers to is in use. -/
def Uses (m : Machine) (F : Function) : Prop :=
  ∀ x ∈ (Object.function F).children, m.heap.Reach m.roots.refs x

theorem Calls.root (h : m.Calls r) : r ∈ m.roots.refs := mem_refs.2 (Or.inr (Or.inl h))

theorem Calls.live {r : Ref} (h : m.Calls r) (hm : m.Sound) : m.heap.Live r := hm.roots h.root

theorem Uses.live {F : Function} (h : m.Uses F) (hm : m.Sound) {x : Ref}
    (hx : x ∈ (Object.function F).children) : m.heap.Live x :=
  hm.heap.live_of_reach (fun _ hr => hm.roots hr) (h x hx)

/-- The innermost call at another instruction. -/
def jumped (m : Machine) (ip : Nat) : Machine :=
  { m with frames := m.frames.modify (m.frames.size - 1) fun f => { f with ip } }

theorem map_closure_jumped (m : Machine) (ip : Nat) :
    (m.jumped ip).frames.toList.map (·.closure) = m.frames.toList.map (·.closure) := by
  simp only [jumped, Array.toList_modify]
  refine List.ext_getElem? fun i => ?_
  simp only [List.getElem?_map, List.getElem?_modify]
  cases m.frames.toList[i]? with
  | none => rfl
  | some f => split <;> rfl

theorem refs_jumped (m : Machine) (ip : Nat) : (m.jumped ip).roots.refs = m.roots.refs := by
  have hmap := map_closure_jumped m ip
  simp only [Roots.refs, roots] at hmap ⊢
  rw [hmap]
  rfl

theorem calls_iff : m.Calls r ↔ r ∈ m.frames.toList.map (·.closure) := by
  simp [Calls]

theorem calls_jumped (ip : Nat) : (m.jumped ip).Calls r ↔ m.Calls r := by
  rw [calls_iff, calls_iff, map_closure_jumped]

theorem Sound.jumped (hm : m.Sound) (ip : Nat) : (m.jumped ip).Sound :=
  hm.withFrames fun _ hf => ((calls_jumped ip).1 ⟨_, hf, rfl⟩).live hm

theorem back_jumped {f : Frame} (hf : m.frames.back? = some f) (ip : Nat) :
    (m.jumped ip).frames.back? = some { f with ip } := by
  rw [Array.back?_eq_getElem?] at hf ⊢
  simp [Machine.jumped, Array.getElem?_modify, hf]

theorem Sound.liveValue_of_reach (hm : m.Sound)
    (hv : ∀ r, v = .object r → m.heap.Reach m.roots.refs r) :
    m.heap.LiveValue v :=
  .of_live fun r hr => hm.heap.live_of_reach (fun _ hx => hm.roots hx) (hv r hr)

theorem calls_of_back {f : Frame} (h : m.frames.back? = some f) : m.Calls f.closure :=
  ⟨f, Array.mem_of_back? h, rfl⟩

namespace Alike

/-! ## What keeps machines alike -/

theorem withFrames (hm : m1.Alike B c β m2) {fs gs : Array Frame}
    (hfs : List.Forall₂ (Frame.Alike β) fs.toList gs.toList)
    (hf : ∀ f ∈ fs, m1.heap.Live f.closure) (hg : ∀ g ∈ gs, m2.heap.Live g.closure) :
    Alike B c β { m1 with frames := fs } { m2 with frames := gs } :=
  { hm with
    sound₁ := hm.sound₁.withFrames hf
    sound₂ := hm.sound₂.withFrames hg
    frames := hfs }

theorem frames_size (hm : m1.Alike B c β m2) : m1.frames.size = m2.frames.size := by
  simpa using hm.frames.length_eq

theorem interrupted_eq (hm : m1.Alike B c β m2) (b : Bool) :
    Alike B c β { m1 with interrupted := b } { m2 with interrupted := b } :=
  { hm with
    sound₁ := { hm.sound₁ with }
    sound₂ := { hm.sound₂ with }
    interrupted := rfl }

section Lawful

variable (hB : B.Lawful) (hm : m1.Alike B c β m2)
include hB hm

theorem cutTo {n : Nat} (hn : n ≤ m1.stack.depth) (hc : ∀ last ∈ c, n ≤ last) :
    Alike B none β { m1 with stack := m1.stack.cutTo n } { m2 with stack := m2.stack.cutTo n } :=
  { hm with
    sound₁ := hm.sound₁.cutTo hn
    sound₂ := hm.sound₂.cutTo (hm.depth ▸ hn)
    depth := rfl
    values := by
      rw [Stack.toList_cutTo hn, Slots.values, hB.right.cutTo (hm.depth ▸ hn)]
      exact List.forall₂_take n hm.values
    joined := by
      have hjoined := hB.cutTo hm hn hc
      exact hjoined }

/-- Objects come and go, and some that are no variables are paired. -/
theorem evolves {h1 h2 : Heap} (he1 : m1.heap.Evolves m1.roots.refs h1)
    (he2 : m2.heap.Evolves m2.roots.refs h2)
    (hno1 : m1.heap.AddsNoOpen h1) (hno2 : m2.heap.AddsNoOpen h2) (hle : ∀ {a b}, β a b → β' a b)
    (hh : h1.Alike B.kin β' h2)
    (hnew : ∀ {a b}, β' a b → h1.Live a → β a b ∨ ∀ u, h1.object? a ≠ some (.upvalue u)) :
    Alike B c β' { m1 with heap := h1 } { m2 with heap := h2 } :=
  { hm with
    sound₁ := hm.sound₁.evolves he1 hno1
    sound₂ := hm.sound₂.evolves he2 hno2
    heap := hh
    values := by
      rw [Slots.values, hB.right.evolves hm.sound₂ he2]
      exact hm.values.imp fun _ _ => .mono hle
    frames := hm.frames.imp fun _ _ => .mono hle
    globals := hm.globals.imp fun _ _ hk hv => ⟨hk.mono hle, hv.mono hle⟩
    joined := by
      have hjoined := hB.evolves hm he1 he2 hle hh hnew
      exact hjoined }

theorem agrees {h1 h2 : Heap} (ha1 : m1.heap.Agrees h1) (ha2 : m2.heap.Agrees h2) :
    Alike B c β { m1 with heap := h1 } { m2 with heap := h2 } := by
  have hnone : ∀ {h h' : Heap}, h.Agrees h' → h.AddsNoOpen h' := fun ha _ _ hl hge _ =>
    absurd (ha.live_iff.1 hl).lt (Nat.not_lt.2 hge)
  exact hm.evolves hB ((Heap.Evolves.refl hm.sound₁.heap fun r hr => hm.sound₁.roots hr).agrees ha1)
    ((Heap.Evolves.refl hm.sound₂.heap fun r hr => hm.sound₂.roots hr).agrees ha2) (hnone ha1)
    (hnone ha2) id (hm.heap.agrees ha1 ha2) fun hab _ => Or.inl hab

theorem allocate {o p : Object} (hop : o.Alike B.kin β p) (hnot : ∀ s x, o ≠ .text s x)
    (hvar : ∀ u, o ≠ .upvalue u)
    (hc1 : ∀ x ∈ o.children, m1.heap.Reach m1.roots.refs x)
    (hc2 : ∀ x ∈ p.children, m2.heap.Reach m2.roots.refs x) :
    ∃ r s h1 h2, m1.heap.allocate m1.roots o = (r, h1) ∧ m2.heap.allocate m2.roots p = (s, h2) ∧
      m1.heap.Allocated m1.roots.refs o r h1 ∧ m2.heap.Allocated m2.roots.refs p s h2 ∧
      Alike B c (β.add r s) { m1 with heap := h1 } { m2 with heap := h2 } := by
  have hnot' : ∀ s x, p ≠ .text s x := by
    rintro s n rfl
    cases hop
    exact hnot s n rfl
  have hvar' : ∀ u, p ≠ .upvalue u := by
    rintro u rfl
    cases hop
    exact hvar _ rfl
  have ha1 := hm.sound₁.allocated hnot hc1
  have ha2 := hm.sound₂.allocated hnot' hc2
  refine ⟨_, _, _, _, rfl, rfl, ha1, ha2, hm.evolves hB ha1.toEvolves ha2.toEvolves
    (ha1.addsNoOpen fun u hu => (hvar u hu).elim) (ha2.addsNoOpen fun u hu => (hvar' u hu).elim)
    (β.le_add _ _) (hm.heap.allocated ha1 ha2 hop) ?_⟩
  rintro a b (hab | ⟨rfl, rfl⟩) -
  · exact Or.inl hab
  · exact Or.inr fun u hu => hvar u (Option.some.inj (ha1.object_new.symm.trans hu))

theorem intern (s : String) :
    ∃ k l h1 h2, m1.heap.intern m1.roots s = (k, h1) ∧ m2.heap.intern m2.roots s = (l, h2) ∧
    m1.heap.InternedAs m1.roots.refs s k h1 ∧ m2.heap.InternedAs m2.roots.refs s l h2 ∧
      Alike B c (β.add k.ref l.ref) { m1 with heap := h1 } { m2 with heap := h2 } := by
  have hi1 := hm.sound₁.interned s
  have hi2 := hm.sound₂.interned s
  refine ⟨_, _, _, _, rfl, rfl, hi1, hi2, hm.evolves hB hi1.toEvolves hi2.toEvolves hi1.addsNoOpen
    hi2.addsNoOpen (β.le_add _ _) (hm.heap.internedAs hi1 hi2) ?_⟩
  rintro a b (hab | ⟨rfl, rfl⟩) -
  · exact Or.inl hab
  · refine Or.inr fun u hu => ?_
    cases hi1.object_key.symm.trans hu

theorem setClosure {x y : Ref} (hxy : m1.Pairs β m2 x y) {f g : Option Ref}
    {us vs : Array (Option Ref)}
    (hx : m1.heap.object? x = some (.closure f us)) (hy : m2.heap.object? y = some (.closure g vs))
    {o o' : Option Ref} (ho : Option.Rel (m1.Pairs β m2) o o') (i : Nat) :
    Alike B c β { m1 with heap := m1.heap.setObject x (.closure f (us.setIfInBounds i o)) }
      { m2 with heap := m2.heap.setObject y (.closure g (vs.setIfInBounds i o')) } := by
  have hfg : Option.Rel β f g ∧ List.Forall₂ (Option.Rel β) us.toList vs.toList := by
    obtain ⟨_, _, hx', hy', hop⟩ := hm.heap.object hxy.paired hxy.left hxy.right
    rw [hx] at hx'
    rw [hy] at hy'
    cases hx'
    cases hy'
    cases hop with
    | closure hfg hus => exact ⟨hfg, hus⟩
  have hlive : (∀ r ∈ o, m1.heap.Live r) ∧ ∀ r ∈ o', m2.heap.Live r := by
    cases ho with
    | none => exact ⟨by simp, by simp⟩
    | some h =>
      exact ⟨fun r hr => Option.mem_some_iff.1 hr ▸ h.left, fun r hr =>
        Option.mem_some_iff.1 hr ▸ h.right⟩
  have ho' : Option.Rel β o o' := rel_mono (fun h => h.paired) ho
  have hop : (Object.closure f (us.setIfInBounds i o)).Alike B.kin β
      (.closure g (vs.setIfInBounds i o')) := by
    refine .closure hfg.1 ?_
    rw [Array.toList_setIfInBounds, Array.toList_setIfInBounds]
    exact forall₂_set hfg.2 i ho'
  exact { hm with
    sound₁ := hm.sound₁.setClosure hxy.left hx i hlive.1
    sound₂ := hm.sound₂.setClosure hxy.right hy i hlive.2
    heap := hm.heap.setObject hxy.paired hxy.left hxy.right hop
    values := by
      rw [Slots.values, hB.right.setClosure hy]
      exact hm.values
    joined := by
      have hjoined := hB.setClosure (us.setIfInBounds i o) (vs.setIfInBounds i o') f g hm hx hy
      exact hjoined }

end Lawful

/-! ## Globals -/

theorem unmixed (hm : m1.Alike B c β m2) :
    Unmixed fun k l => k.Alike β l ∧ m1.heap.Live k.ref ∧ m2.heap.Live l.ref where
  ref_iff hk hl := hm.heap.eq_iff hk.1.ref hl.1.ref hk.2.1 hl.2.1 hk.2.2 hl.2.2
  hash_eq hk := hk.1.hash

theorem globals_live (hm : m1.Alike B c β m2) :
    m1.globals.Paired (fun k l => k.Alike β l ∧ m1.heap.Live k.ref ∧ m2.heap.Live l.ref)
      (m1.Shares β m2) m2.globals :=
  hm.globals.imp fun hk hl hkl hvw =>
    have h1 := hm.sound₁.globals hk
    have h2 := hm.sound₂.globals hl
    ⟨⟨hkl, h1.1, h2.1⟩, hvw, h1.2.2, h2.2.2⟩

section Names

variable {k l : Symbol} (hm : m1.Alike B c β m2) (hkl : k.Alike β l) (hk : m1.heap.Names k)
  (hl : m2.heap.Names l)
include hm hkl hk hl

theorem global : Option.Rel (m1.Shares β m2) (m1.globals.get? k) (m2.globals.get? l) :=
  hm.globals_live.get? hm.unmixed ⟨hkl, hk.1, hl.1⟩

theorem setGlobal (hvw : m1.Shares β m2 v w) : (m1.globals.set k v).1 = (m2.globals.set l w).1 ∧
      Alike B c β { m1 with globals := (m1.globals.set k v).2 }
      { m2 with globals := (m2.globals.set l w).2 } := by
  obtain ⟨hflag, hpaired⟩ := hm.globals_live.set hm.unmixed ⟨hkl, hk.1, hl.1⟩ hvw
  exact ⟨hflag, { hm with
    sound₁ := hm.sound₁.setGlobal hk.1 hk.2 hvw.left
    sound₂ := hm.sound₂.setGlobal hl.1 hl.2 hvw.right
    globals := hpaired.imp fun _ _ hk hv => ⟨hk.1, hv.1⟩ }⟩

theorem eraseGlobal :
    Alike B c β { m1 with globals := (m1.globals.erase k).2 }
    { m2 with globals := (m2.globals.erase l).2 } := by
  obtain ⟨-, hpaired⟩ := hm.globals_live.erase hm.unmixed ⟨hkl, hk.1, hl.1⟩
  exact { hm with
    sound₁ := hm.sound₁.eraseGlobal hk.2
    sound₂ := hm.sound₂.eraseGlobal hl.2
    globals := hpaired.imp fun _ _ hk hv => ⟨hk.1, hv.1⟩ }

end Names

/-! ## What both machines read -/

section

variable (hB : B.Lawful) (hm : m1.Alike B c β m2)
include hB hm

theorem value? (i : Nat) :
    Option.Rel (fun v w => m1.Shares β m2 v w ∧ v ∈ m1.stack.toList ∧ w ∈ B.right.values m2)
      m1.stack.toList[i]? (B.right.values m2)[i]? := by
  have hrel := forall₂_getElem? hm.values i
  generalize h1 : m1.stack.toList[i]? = x at hrel
  generalize h2 : (B.right.values m2)[i]? = y at hrel
  cases hrel with
  | none => exact .none
  | some hvw =>
    have hv := List.mem_of_getElem? h1
    have hw := List.mem_of_getElem? h2
    exact .some ⟨⟨hvw, Slots.stack_lawful.live hm.sound₁ hv, hB.right.live hm.sound₂ hw⟩, hv, hw⟩

theorem slot (i : Nat) :
    Exec.Reads (Slots.stack.read i) (B.right.read i) m1 m2 (m1.Shares β m2) := by
  rw [Slots.stack_lawful.read_eq, hB.right.read_eq]
  exact .get_bind (.need (rel_mono (fun h => h.1) (hm.value? hB i)))

theorem peek (n : Nat) :
    Exec.Reads (Slots.stack.peek n) (B.right.peek n) m1 m2 (m1.Shares β m2) := by
  rw [Slots.stack_lawful.peek_eq, hB.right.peek_eq]
  refine .get_bind (.need ?_)
  rw [hm.depth]
  split
  · exact rel_mono (fun h => h.1) (hm.value? hB _)
  · exact .none

theorem top (n : Nat) :
    Exec.Reads (Slots.stack.top n) (B.right.top n) m1 m2 fun vs ws =>
    (List.Forall₂ (Value.Alike β) vs ws ∧
      (∀ v ∈ vs, v ∈ m1.stack.toList) ∧ ∀ w ∈ ws, w ∈ B.right.values m2) ∧ n ≤ m1.stack.depth ∧
      vs.length = n ∧ vs = m1.stack.toList.drop (m1.stack.depth - n) := by
  rw [Slots.stack_lawful.top_eq, hB.right.top_eq]
  refine .get_bind (.need ?_)
  rw [hm.depth]
  split
  · rename_i hn
    refine .some
      ⟨⟨List.forall₂_drop _ hm.values, fun v hv => List.mem_of_mem_drop hv, fun w hw =>
      List.mem_of_mem_drop hw⟩, hn, ?_, rfl⟩
    rw [List.length_drop, Slots.stack_lawful.length hm.sound₁, hm.depth]
    omega
  · exact .none

end

section

variable (hm : m1.Alike B c β m2)
include hm

theorem object {r s : Ref} (hrs : m1.Pairs β m2 r s) :
    Exec.Reads (Exec.object r) (Exec.object s) m1 m2 fun o p =>
      o.Alike B.kin β p ∧ m1.heap.object? r = some o ∧ m2.heap.object? s = some p := by
  obtain ⟨o, p, ho, hp, hop⟩ := hm.heap.object hrs.paired hrs.left hrs.right
  exact .ok (Exec.object_eq ho) (Exec.object_eq hp) ⟨hop, ho, hp⟩

theorem upvalue {r s : Ref} (hrs : m1.Pairs β m2 r s) :
    Exec.Reads (Exec.upvalue r) (Exec.upvalue s) m1 m2 fun u x => B.kin.vars β u x ∧
      m1.heap.object? r = some (.upvalue u) ∧ m2.heap.object? s = some (.upvalue x) := by
  unfold Exec.upvalue
  refine .bind (hm.object hrs) ?_
  rintro o p ⟨hop, ho, hp⟩
  cases hop with
  | upvalue hkin => exact .pure ⟨hkin, ho, hp⟩
  | _ => exact .fault

theorem text (hvw : m1.Shares β m2 v w) :
    Exec.Reads (Exec.text v) (Exec.text w) m1 m2 (· = ·) := by
  refine .get_bind (.need ?_)
  exact rel_of_eq (hm.heap.text?_eq hm.sound₁.heap hm.sound₂.heap hvw.alike hvw.left hvw.right)

theorem typeName (hvw : m1.Shares β m2 v w) :
    Exec.Reads (Exec.typeName v) (Exec.typeName w) m1 m2 (· = ·) := by
  refine .get_bind (.need ?_)
  exact rel_of_eq (hm.heap.typeName?_eq hvw.alike hvw.left hvw.right)

theorem foldlM_text (join : String → String → String) {vs ws : List Value}
    (h : List.Forall₂ (Value.Alike β) vs ws) (hv : ∀ v ∈ vs, m1.heap.LiveValue v)
    (hw : ∀ w ∈ ws, m2.heap.LiveValue w) (acc : String) :
    Exec.Reads (vs.foldlM (fun acc v => do pure (join acc (← Exec.text v))) acc)
      (ws.foldlM (fun acc v => do pure (join acc (← Exec.text v))) acc) m1 m2 (· = ·) := by
  induction h generalizing acc with
  | nil => exact .pure rfl
  | @cons v w vs ws hvw _ ih =>
    rw [List.foldlM_cons, List.foldlM_cons]
    refine .bind (.bind (hm.text ⟨hvw, hv v List.mem_cons_self, hw w List.mem_cons_self⟩) fun h =>
      .pure (congrArg _ h)) ?_
    rintro acc _ rfl
    exact ih (fun v hv' => hv v (List.mem_cons_of_mem _ hv'))
      (fun w hw' => hw w (List.mem_cons_of_mem _ hw')) acc

theorem charsOf (hvw : m1.Shares β m2 v w) :
    Exec.Reads (Exec.charsOf v) (Exec.charsOf w) m1 m2 (· = ·) := by
  obtain ⟨halike, hl, hr⟩ := hvw
  cases halike with
  | object hab => exact .get_bind (.pure (hm.heap.chars?_eq hab hl hr))
  | _ => exact .pure rfl

theorem symbol (hvw : m1.Shares β m2 v w) :
    Exec.Reads (Exec.symbol v) (Exec.symbol w) m1 m2 fun k l => k.Alike β l ∧ m1.heap.Names k ∧
      m2.heap.Names l := by
  obtain ⟨halike, hl, hr⟩ := hvw
  cases halike with
  | object hab =>
    obtain ⟨o, p, ho, hp, hop⟩ := hm.heap.object hab hl hr
    refine .get_bind (.need ?_)
    unfold Heap.symbol?
    rw [ho, hp]
    cases hop with
    | text s n => exact .some ⟨⟨hab, rfl, rfl⟩, ⟨hl, ho⟩, ⟨hr, hp⟩⟩
    | _ => exact .none
  | _ => exact .fault

theorem function {r s : Ref} (hrs : m1.Pairs β m2 r s) :
    Exec.Reads (Exec.function r) (Exec.function s) m1 m2 fun F G => F.Alike β G ∧
      m1.heap.object? r = some (.function F) ∧ m2.heap.object? s = some (.function G) := by
  obtain ⟨o, p, ho, hp, hop⟩ := hm.heap.object hrs.paired hrs.left hrs.right
  refine .get_bind (.need ?_)
  unfold Heap.function?
  rw [ho, hp]
  cases hop with
  | function hFG => exact .some ⟨hFG, rfl, rfl⟩
  | _ => exact .none

/-! ## Code -/

theorem jumped (ip : Nat) : (m1.jumped ip).Alike B c β (m2.jumped ip) := by
  refine hm.withFrames ?_ ?_ ?_
  · rw [hm.frames_size, Array.toList_modify, Array.toList_modify]
    exact forall₂_modify hm.frames _ fun h => ⟨h.closure, rfl, h.base⟩
  · exact fun _ hf => (hm.sound₁.jumped ip).frames hf
  · exact fun _ hg => (hm.sound₂.jumped ip).frames hg

theorem frame : Exec.Reads Exec.frame Exec.frame m1 m2 fun f g =>
    f.Alike β g ∧ m1.frames.back? = some f ∧ m2.frames.back? = some g := by
  refine .get_bind (.need ?_)
  have hrel := forall₂_getElem? hm.frames (m1.frames.size - 1)
  rw [Array.getElem?_toList, Array.getElem?_toList, ← Array.back?_eq_getElem?] at hrel
  rw [hm.frames_size, ← Array.back?_eq_getElem?] at hrel
  generalize h1 : m1.frames.back? = x at hrel
  generalize h2 : m2.frames.back? = y at hrel
  cases hrel with
  | none => exact .none
  | some hfg => exact .some ⟨hfg, rfl, rfl⟩

theorem functionOf {f g : Frame} (hfg : f.Alike β g) (hf : m1.Calls f.closure)
    (hg : m2.Calls g.closure) : Exec.Reads (Exec.functionOf f) (Exec.functionOf g) m1 m2 fun F G =>
      F.Alike β G ∧ m1.Uses F ∧ m2.Uses G := by
  have hlf := hf.live hm.sound₁
  have hlg := hg.live hm.sound₂
  obtain ⟨o, p, ho, hp, hop⟩ := hm.heap.object hfg.closure hlf hlg
  refine .get_bind ?_
  rw [ho, hp]
  cases hop with
  | @closure F G us vs hFG hus =>
    cases hFG with
    | none => exact .fault
    | @some x y hxy =>
      have hx : x ∈ (Object.closure (some x) us).children := by simp [Object.children]
      have hy : y ∈ (Object.closure (some y) vs).children := by simp [Object.children]
      have hrx : m1.heap.Reach m1.roots.refs x := .step (.root hf.root) ho hx
      have hry : m2.heap.Reach m2.roots.refs y := .step (.root hg.root) hp hy
      refine .need ?_
      obtain ⟨o', p', ho', hp', hop'⟩ := hm.heap.object hxy (hm.sound₁.heap.closed hlf ho x hx)
        (hm.sound₂.heap.closed hlg hp y hy)
      simp only [Heap.function?, ho', hp']
      cases hop' with
      | function h => exact .some ⟨h, fun z hz => .step hrx ho' hz, fun z hz => .step hry hp' hz⟩
      | _ => exact .none
  | _ => exact .fault

/-- The constants that the functions refer to correspond. -/
theorem constant {F G : Function} (hFG : F.Alike β G) (hF : m1.Uses F) (hG : m2.Uses G) (i : Nat) :
    Option.Rel (fun v w => m1.Shares β m2 v w ∧ (∀ r, v = .object r → m1.heap.Reach m1.roots.refs r) ∧
      ∀ r, w = .object r → m2.heap.Reach m2.roots.refs r) F.chunk.constants[i]?
        G.chunk.constants[i]? := by
  have hrel := forall₂_getElem? hFG.constants i
  rw [Array.getElem?_toList, Array.getElem?_toList] at hrel
  generalize h1 : F.chunk.constants[i]? = x at hrel
  generalize h2 : G.chunk.constants[i]? = y at hrel
  cases hrel with
  | none => exact .none
  | @some v w hvw =>
    have hv : ∀ r, v = .object r → m1.heap.Reach m1.roots.refs r := by
      rintro r rfl
      exact hF r (Heap.mem_children_constant h1)
    have hw : ∀ r, w = .object r → m2.heap.Reach m2.roots.refs r := by
      rintro r rfl
      exact hG r (Heap.mem_children_constant h2)
    exact .some ⟨⟨hvw, hm.sound₁.liveValue_of_reach hv, hm.sound₂.liveValue_of_reach hw⟩, hv, hw⟩

theorem traceOf {fs gs : List Frame} (h : List.Forall₂ (Frame.Alike β) fs gs)
    (hf : ∀ f ∈ fs, m1.Calls f.closure) (hg : ∀ g ∈ gs, m2.Calls g.closure) :
    Exec.Reads (Exec.traceOf fs) (Exec.traceOf gs) m1 m2 (· = ·) := by
  induction h with
  | nil => exact .pure rfl
  | @cons f g fs gs hfg _ ih =>
    unfold Exec.traceOf
    refine .bind (hm.functionOf hfg (hf f List.mem_cons_self) (hg g List.mem_cons_self)) ?_
    rintro F G ⟨hFG, hF, hG⟩
    refine .bind (.need (rel_of_eq (by rw [hFG.lines, hfg.ip]))) ?_
    rintro line _ rfl
    refine .get_bind ?_
    rw [hm.heap.nameOf_eq hFG (fun x hx => hF.live hm.sound₁ (Heap.mem_children_name hx))
      fun x hx => hG.live hm.sound₂ (Heap.mem_children_name hx)]
    refine .bind (ih (fun f hf' => hf f (List.mem_cons_of_mem _ hf')) fun g hg' =>
      hg g (List.mem_cons_of_mem _ hg')) ?_
    rintro ts _ rfl
    exact .pure rfl

theorem upvalueOf {r s : Ref} (hrs : m1.Pairs β m2 r s) (i : Nat) :
    Exec.Reads (Exec.upvalueOf r i) (Exec.upvalueOf s i) m1 m2 (Option.Rel (m1.Pairs β m2)) := by
  refine .bind (hm.object hrs) ?_
  rintro o p ⟨hop, ho, hp⟩
  cases hop with
  | @closure f g us vs hfg hus =>
    refine .need ?_
    have hrel := forall₂_getElem? hus i
    rw [Array.getElem?_toList, Array.getElem?_toList] at hrel
    generalize h1 : us[i]? = x at hrel
    generalize h2 : vs[i]? = y at hrel
    cases hrel with
    | none => exact .none
    | some hxy =>
      cases hxy with
      | none => exact .some .none
      | some hab =>
        exact .some (.some ⟨hab, hm.sound₁.heap.closed hrs.left ho _ (Heap.mem_children_upvalue h1),
          hm.sound₂.heap.closed hrs.right hp _ (Heap.mem_children_upvalue h2)⟩)
  | _ => exact .fault

end

end Alike

end Machine

/-! ## Moves side by side -/

namespace Exec

open Machine (Alike)

/-- The computations go on alike with machines of the bond. -/
abbrev Along {α α' : Type} (B : Bond) (β : Pairing) (x : Exec α) (x' : Exec α') (m1 m2 : Machine)
    (Q : Pairing → α → α' → Machine → Machine → Prop) : Prop :=
  Sync (Alike B none) β x x' m1 m2 Q

variable {α α' : Type} {Q : Pairing → α → α' → Machine → Machine → Prop}

theorem allocate_run {o : Object} {r : Ref} {h : Heap} (heq : m.heap.allocate m.roots o = (r, h)) :
    Exec.allocate o m = .ok r { m with heap := h } := by
  have hdef : Exec.allocate o m = .ok (m.heap.allocate m.roots o).1
    { m with heap := (m.heap.allocate m.roots o).2 } := rfl
  rw [hdef, heq]

theorem intern_run {s : String} {k : Symbol} {h : Heap} (heq : m.heap.intern m.roots s = (k, h)) :
    Exec.intern s m = .ok k { m with heap := h } := by
  have hdef : Exec.intern s m = .ok (m.heap.intern m.roots s).1
    { m with heap := (m.heap.intern m.roots s).2 } := rfl
  rw [hdef, heq]

section

variable (hm : m1.Alike B none β m2)
include hm

/-- The computations go on with the innermost calls and their functions. -/
theorem Along.frame_bind {k : Frame → Function → Exec α} {k' : Frame → Function → Exec α'}
    (hk : ∀ {f g F G}, f.Alike β g → F.Alike β G → m1.Uses F → m2.Uses G →
      Along B β (k f F) (k' g G) m1 m2 Q) :
    Along B β (Exec.frame >>= fun f => functionOf f >>= k f)
    (Exec.frame >>= fun g => functionOf g >>= k' g) m1 m2 Q := by
  refine hm.frame.sync_bind hm ?_
  rintro f g ⟨hfg, hf, hg⟩
  refine (hm.functionOf hfg (Machine.calls_of_back hf) (Machine.calls_of_back hg)).sync_bind hm ?_
  rintro F G ⟨hFG, hF, hG⟩
  exact hk hfg hFG hF hG

theorem Along.readByte : Along B β Exec.readByte Exec.readByte m1 m2
    fun β' b b' n1 n2 => β' = β ∧ b = b' ∧ ∃ ip, n1 = m1.jumped ip ∧ n2 = m2.jumped ip := by
  refine Along.frame_bind hm fun {f g F G} hfg hFG _ _ => ?_
  refine (Reads.need (rel_of_eq (by rw [hFG.code, hfg.ip]))).sync_bind hm ?_
  rintro b _ rfl
  exact .of_ok rfl rfl id ⟨rfl, rfl, f.ip + 1, rfl, by rw [hfg.ip]; rfl⟩

theorem Along.readByte_bind {f : UInt8 → Exec α} {f' : UInt8 → Exec α'}
    (hf : ∀ {b ip}, (m1.jumped ip).Alike B none β (m2.jumped ip) →
      Exec.readByte m1 = .ok b (m1.jumped ip) →
      Along B β (f b) (f' b) (m1.jumped ip) (m2.jumped ip) Q) :
    Along B β (Exec.readByte >>= f) (Exec.readByte >>= f') m1 m2 Q := by
  refine (Along.readByte hm).with_left.bind ?_
  rintro β' b _ _ _ - ⟨⟨rfl, rfl, ip, rfl, rfl⟩, heq⟩
  exact hf (hm.jumped ip) heq

theorem Along.readShort_bind {f : Nat → Exec α} {f' : Nat → Exec α'}
    (hf : ∀ {n ip}, (m1.jumped ip).Alike B none β (m2.jumped ip) →
      Along B β (f n) (f' n) (m1.jumped ip) (m2.jumped ip) Q) :
    Along B β (Exec.readShort >>= f) (Exec.readShort >>= f') m1 m2 Q := by
  have hread : Along B β Exec.readShort Exec.readShort m1 m2 fun β' n n' n1 n2 =>
      β' = β ∧ n = n' ∧ ∃ ip, n1 = m1.jumped ip ∧ n2 = m2.jumped ip := by
    refine Along.frame_bind hm fun {f g F G} hfg hFG _ _ => ?_
    refine (Reads.need (rel_of_eq (by simp only [Chunk.short?, hFG.code, hfg.ip]))).sync_bind hm ?_
    rintro n _ rfl
    exact .of_ok rfl rfl id ⟨rfl, rfl, f.ip + 2, rfl, by rw [hfg.ip]; rfl⟩
  refine hread.bind ?_
  rintro β' n _ _ _ - ⟨rfl, rfl, ip, rfl, rfl⟩
  exact hf (hm.jumped ip)

theorem Along.readConstant_bind {f f' : Value → Exec α}
    {Q : Pairing → α → α → Machine → Machine → Prop}
    (hf : ∀ {v w ip}, (m1.jumped ip).Alike B none β (m2.jumped ip) → m1.Shares β m2 v w →
      (∀ r, v = .object r → m1.heap.Reach m1.roots.refs r) →
      (∀ r, w = .object r → m2.heap.Reach m2.roots.refs r) →
      Exec.readConstant m1 = .ok v (m1.jumped ip) →
      Along B β (f v) (f' w) (m1.jumped ip) (m2.jumped ip) Q) :
    Along B β (Exec.readConstant >>= f) (Exec.readConstant >>= f') m1 m2 Q := by
  have hread : Along B β Exec.readConstant Exec.readConstant m1 m2 fun β' v w n1 n2 => β' = β ∧
      m1.Shares β m2 v w ∧ (∀ r, v = .object r → m1.heap.Reach m1.roots.refs r) ∧
      (∀ r, w = .object r → m2.heap.Reach m2.roots.refs r) ∧ ∃ ip, n1 = m1.jumped ip ∧
      n2 = m2.jumped ip := by
    refine Along.frame_bind hm fun {f g F G} hfg hFG hF hG => ?_
    refine (Reads.need (rel_of_eq (by rw [hFG.code, hfg.ip]))).sync_bind hm ?_
    rintro b _ rfl
    refine .bind_ok (x := jumpTo _) (y := jumpTo _) rfl rfl ?_
    have hjumped := hm.jumped (f.ip + 1)
    rw [← hfg.ip]
    have hrel := hm.constant hFG hF hG b.toNat
    generalize F.chunk.constants[b.toNat]? = x at hrel
    generalize G.chunk.constants[b.toNat]? = y at hrel
    cases hrel with
    | none => exact .fault hjumped
    | some h => exact .of_ok rfl rfl id ⟨rfl, h.1, h.2.1, h.2.2, f.ip + 1, rfl, rfl⟩
  refine hread.with_left.bind ?_
  rintro β' v w _ _ - ⟨⟨rfl, hvw, hv, hw, ip, rfl, rfl⟩, heq⟩
  exact hf (hm.jumped ip) hvw hv hw heq

theorem Along.readName_bind {α : Type} {f f' : Symbol → Exec α}
    {Q : Pairing → α → α → Machine → Machine → Prop}
    (hf : ∀ {k l ip}, (m1.jumped ip).Alike B none β (m2.jumped ip) → k.Alike β l → m1.heap.Names k →
      m2.heap.Names l → Along B β (f k) (f' l) (m1.jumped ip) (m2.jumped ip) Q) :
    Along B β (do f (← symbol (← readConstant))) (do f' (← symbol (← readConstant))) m1 m2 Q := by
  refine Along.readConstant_bind hm ?_
  intro v w ip hm' hvw _ _ _
  refine (hm'.symbol hvw).sync_bind hm' ?_
  rintro k l ⟨hkl, hk, hl⟩
  exact hf hm' hkl hk hl

end

/-! ### The stack -/

section Stack

variable (hB : B.Lawful)
include hB

theorem Along.pop_bind {c : Option Nat} (hm : m1.Alike B c β m2)
    (hc : ∀ last ∈ c, m1.stack.depth ≤ last + 1) {f : Value → Exec α} {f' : Value → Exec α'}
    (hf : ∀ {v w d}, m1.stack.depth = d + 1 → m1.Shares β m2 v w →
      Alike B none β { m1 with stack := m1.stack.cutTo d } { m2 with stack := m2.stack.cutTo d } →
      Along B β (f v) (f' w) { m1 with stack := m1.stack.cutTo d }
      { m2 with stack := m2.stack.cutTo d } Q) :
    Along B β (Slots.stack.pop >>= f) (B.right.pop >>= f') m1 m2 Q := by
  have hdepth := hm.depth
  cases hd : m1.stack.depth with
  | zero =>
    have hnone := hm.cutTo hB (Nat.le_refl _) fun last hlast => by omega
    have hleft := Slots.stack_lawful.pop_fault hd
    have hright := hB.right.pop_fault (hdepth ▸ hd)
    refine (Reads.error hleft hright : Reads _ _ _ _ fun _ _ => False).sync_bind ?_ False.elim
    rw [hd] at hnone
    have h1 : ({ m1 with stack := m1.stack.cutTo 0 } : Machine) = m1 := by rw [← hd]; rfl
    have h2 : ({ m2 with stack := m2.stack.cutTo 0 } : Machine) = m2 := by rw [← hd, hdepth]; rfl
    rwa [h1, h2] at hnone
  | succ d =>
    have hcut := hm.cutTo hB (n := d) (by omega) fun last hlast => by
      have := hc last hlast
      omega
    obtain ⟨v, hv⟩ : ∃ v, m1.stack.toList[d]? = some v :=
      ⟨_, List.getElem?_eq_getElem (by rw [Slots.stack_lawful.length hm.sound₁]; omega)⟩
    have hrel := hm.value? hB d
    rw [hv] at hrel
    generalize hw : (B.right.values m2)[d]? = y at hrel
    cases hrel with
    | @some _ w hvw =>
      have hleft := Slots.stack_lawful.pop_ok hd hv
      have hright := hB.right.pop_ok (hdepth ▸ hd) hw
      exact .bind_ok hleft hright (hf hd hvw.1 hcut)

theorem Along.discardPop_bind {c : Option Nat} (hm : m1.Alike B c β m2)
    (hc : ∀ last ∈ c, m1.stack.depth ≤ last + 1) {f : PUnit → Exec α} {f' : PUnit → Exec α'}
    (hf : ∀ {d}, m1.stack.depth = d + 1 →
      Alike B none β { m1 with stack := m1.stack.cutTo d } { m2 with stack := m2.stack.cutTo d } →
      Along B β (f ⟨⟩) (f' ⟨⟩) { m1 with stack := m1.stack.cutTo d }
      { m2 with stack := m2.stack.cutTo d } Q) :
    Along B β (discard Slots.stack.pop >>= f) (discard B.right.pop >>= f') m1 m2 Q := by
  have hpop : Along B β (discard Slots.stack.pop) (discard B.right.pop) m1 m2 fun β' _ _ n1 n2 =>
    β' = β ∧ ∃ d,
      m1.stack.depth = d + 1 ∧ n1 = { m1 with stack := m1.stack.cutTo d } ∧
      n2 = { m2 with stack := m2.stack.cutTo d } ∧ n1.Alike B none β n2 :=
    Along.pop_bind hB hm hc fun hd _ hcut => .pure ⟨rfl, _, hd, rfl, rfl, hcut⟩
  refine hpop.bind ?_
  rintro β' _ _ _ _ - ⟨rfl, d, hd, rfl, rfl, hcut⟩
  exact hf hd hcut

/-! ### Failures -/

section

variable (hm : m1.Alike B none β m2) (hclear : B.Clears m1 m1.stack.depth) (failure : Failure)
include hm hclear failure

/-- **A failure leaves the machines alike, with the same trace.** -/
theorem Along.raise :
    Along B β (Exec.raise failure : Exec α) (Exec.raise failure B.right : Exec α') m1 m2 Q := by
  unfold Exec.raise
  refine .get_bind ?_
  have htrace :=
    hm.traceOf (List.rel_reverse hm.frames)
    (fun f hf => ⟨f, Array.mem_toList_iff.1 (List.mem_reverse.1 hf), rfl⟩)
    (fun g hg => ⟨g, Array.mem_toList_iff.1 (List.mem_reverse.1 hg), rfl⟩)
  refine htrace.sync_bind hm ?_
  rintro ts _ rfl
  have hreset : Along B β Exec.resetStack (Exec.resetStack B.right) m1 m2 fun β' _ _ n1 n2 =>
      n1.Alike B none β' n2 := by
    unfold Exec.resetStack
    refine (hB.closeFrom hm hclear).bind ?_
    rintro β' _ _ n1 n2 - ⟨hclosed, -⟩
    refine .of_ok rfl rfl id ?_
    exact (hclosed.cutTo hB (Nat.zero_le _) fun _ _ => Nat.zero_le _).withFrames .nil
      (by simp) (by simp)
  refine hreset.bind ?_
  intro β' _ _ n1 n2 _ hn
  rw [hm.file]
  exact .throw hn _

theorem Along.raise_bind {γ γ' : Type} {f : γ → Exec α} {f' : γ' → Exec α'} :
    Along B β (Exec.raise failure >>= f) (Exec.raise failure B.right >>= f') m1 m2 Q :=
  Sync.bind (Q := fun _ _ _ _ _ => False) (Along.raise hB hm hclear failure) fun _ h => h.elim

end

end Stack

end Exec

end Parlance
