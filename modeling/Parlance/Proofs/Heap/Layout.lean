/-
  Functions on the heap.

  A function is registered before the functions in it, so that those have higher numbers. It can
  take further constants without an effect on the ones that are complete.
-/
import Parlance.Proofs.Heap.Allocation
import Parlance.Proofs.Compiler.Laws

namespace Parlance

variable {v : Value} {ks : List Constant} {k : Constant}

/-- Objects that do not change any more once they are complete. -/
def Object.Fixed : Object → Prop
  | .text .. | .function _ | .native _ => True
  | .closure .. | .upvalue _ => False

/-- Strings and functions. -/
def Object.Plain : Object → Prop
  | .text .. | .function _ => True
  | .closure .. | .upvalue _ | .native _ => False

theorem Object.Plain.fixed {o : Object} (ho : o.Plain) : o.Fixed := by
  cases o <;> trivial

/-- What laying out adds besides natives is admitted. -/
def Object.Admits (F : Object → Prop) : Prop := ∀ o : Object, o.Plain → F o

mutual

/-- Every native among the constants is one that `F` admits. -/
def Proto.Admitted (F : Object → Prop) : Proto → Prop
  | ⟨_, _, _, _, _, constants⟩ => Constant.AllAdmitted F constants

def Constant.AllAdmitted (F : Object → Prop) : List Constant → Prop
  | [] => True
  | k :: ks => k.Admitted F ∧ Constant.AllAdmitted F ks

def Constant.Admitted (F : Object → Prop) : Constant → Prop
  | .native name => F (.native ⟨name, 0, none⟩)
  | .function f => f.Admitted F
  | .nul | .bool _ | .number _ | .text _ => True

end

mutual

/-- All natives among constants are alike: they have no routine. -/
theorem Proto.admitted_of_native {F : Object → Prop} (hF : ∀ name, F (.native ⟨name, 0, none⟩))
    (p : Proto) : p.Admitted F := by
  obtain ⟨_, _, _, _, _, constants⟩ := p
  rw [Proto.Admitted]
  exact Constant.allAdmitted_of_native hF constants

theorem Constant.allAdmitted_of_native {F : Object → Prop} (hF : ∀ name, F (.native ⟨name, 0, none⟩))
    (ks : List Constant) : Constant.AllAdmitted F ks := by
  cases ks with
  | nil => trivial
  | cons k ks => exact ⟨k.admitted_of_native hF, Constant.allAdmitted_of_native hF ks⟩

theorem Constant.admitted_of_native {F : Object → Prop} (hF : ∀ name, F (.native ⟨name, 0, none⟩))
    (k : Constant) : k.Admitted F := by
  cases k with
  | function p => exact p.admitted_of_native hF
  | native name => exact hF name
  | _ => trivial

end

/-- The same of the steps of a compilation. -/
def Build.Admitted (F : Object → Prop) : Build → Prop
  | .constant k => k.Admitted F
  | .enter _ | .name .. | .leave .. => True

namespace Heap

variable {F : Object → Prop} {h h' h₀ : Heap} {r x : Ref} {p q : Proto} {f : Function}

/-! ## Layouts -/

/-- The name of a function, as an object. -/
def NameIs (h : Heap) : Option String → Option Ref → Prop
  | none, none => True
  | some s, some x => h.object? x = some (.text s (hashText s))
  | _, _ => False

/-- The value of a constant. Of a function this says only that its number is above `low`. -/
def ValueIs (h : Heap) (low : Nat) : Constant → Value → Prop
  | .nul, v => v = .nul
  | .bool b, v => v = .bool b
  | .number y, v => v = .number y
  | .text s, v => ∃ x, v = .object x ∧ h.object? x = some (.text s (hashText s))
  | .native name, v => ∃ x, v = .object x ∧ h.object? x = some (.native ⟨name, 0, none⟩)
  | .function _, v => ∃ x, v = .object x ∧ low < x.serial

/-- The object `r` is the function `p`. -/
inductive LaidOut (h : Heap) : Proto → Ref → Prop
  | intro {p : Proto} {r : Ref} {f : Function} (function_eq : h.object? r = some (.function f))
      (name : h.NameIs p.name f.name) (arity : f.arity = p.arity)
      (upvalueCount : f.upvalueCount = p.upvalueCount)
      (code : f.chunk.code = p.code) (lines : f.chunk.lines = p.lines)
      (size : f.chunk.constants.size = p.constants.length)
      (pool : ∀ {i : Nat} {k v}, p.constants[i]? = some k → f.chunk.constants[i]? = some v →
        h.ValueIs r.serial k v)
      (nested : ∀ {i : Nat} {q x}, p.constants[i]? = some (.function q) →
        f.chunk.constants[i]? = some (.object x) → LaidOut h q x) : LaidOut h p r

/-- The value of a constant, a function with what is in it. -/
def ConstantIs (h : Heap) (low : Nat) (k : Constant) (v : Value) : Prop :=
  h.ValueIs low k v ∧ ∀ q x, k = .function q → v = .object x → h.LaidOut q x

/-- The constants of a function on the heap. -/
structure PoolIs (h : Heap) (low : Nat) (ks : List Constant) (vs : Array Value) : Prop where
  size_eq : vs.size = ks.length
  constant : ∀ {i : Nat} {k v}, ks[i]? = some k → vs[i]? = some v → h.ConstantIs low k v

theorem poolIs_nil (h : Heap) (low : Nat) : h.PoolIs low [] #[] := ⟨rfl, by simp⟩

theorem PoolIs.push {low : Nat} {vs : Array Value}
    (hp : h.PoolIs low ks vs) (hk : h.ConstantIs low k v) : h.PoolIs low (ks ++ [k]) (vs.push v) where
  size_eq := by simp [hp.size_eq]
  constant := by
    intro i k' v' hk' hv'
    rw [Array.getElem?_push, hp.size_eq] at hv'
    split at hv'
    · rename_i heq
      rw [heq, List.getElem?_concat_length] at hk'
      cases hk'
      cases hv'
      exact hk
    · have hlt : i < ks.length := by
        have := (Array.getElem?_eq_some_iff.1 hv').1
        rw [hp.size_eq] at this
        exact this
      rw [List.getElem?_append_left hlt] at hk'
      exact hp.constant hk' hv'

/-- The function `f`, with a number above `low`, is `p`. -/
structure Fits (h : Heap) (low : Nat) (p : Proto) (f : Function) : Prop where
  name : h.NameIs p.name f.name
  arity : f.arity = p.arity
  upvalueCount : f.upvalueCount = p.upvalueCount
  code : f.chunk.code = p.code
  lines : f.chunk.lines = p.lines
  pool : h.PoolIs low p.constants f.chunk.constants

theorem laidOut_iff : h.LaidOut p r ↔ ∃ f, h.object? r = some (.function f) ∧ h.Fits r.serial p f := by
  constructor
  · rintro ⟨hf, hname, harity, hup, hcode, hlines, hsize, hpool, hnested⟩
    refine ⟨_, hf, hname, harity, hup, hcode, hlines, hsize, fun hk hv => ⟨hpool hk hv, ?_⟩⟩
    rintro q x rfl rfl
    exact hnested hk hv
  · rintro ⟨f, hf, hname, harity, hup, hcode, hlines, hpool⟩
    exact .intro hf hname harity hup hcode hlines hpool.size_eq (fun hk hv => (hpool.constant hk hv).1)
      fun hk hv => (hpool.constant hk hv).2 _ _ rfl rfl

/-! ## What keeps a layout -/

/-- Fixed objects of a set stay, and so does the set of what they refer to. -/
structure Keeps (h : Heap) (S : Ref → Prop) (h' : Heap) : Prop where
  object_eq : ∀ {x o}, S x → h.object? x = some o → o.Fixed → h'.object? x = some o
  child : ∀ {x o}, S x → h.object? x = some o → o.Fixed → ∀ c ∈ o.children, S c

theorem NameIs.imp {name : Option String} {ref : Option Ref} (hn : h.NameIs name ref)
    (hk : ∀ {x o}, x ∈ ref → o.Fixed → (∀ f, o ≠ .function f) → h.object? x = some o →
      h'.object? x = some o) :
    h'.NameIs name ref := by
  cases name <;> cases ref <;> try exact hn
  exact hk rfl trivial nofun hn

theorem ValueIs.imp {low : Nat} (hv : h.ValueIs low k v)
    (hk : ∀ {x o}, v = .object x → o.Fixed → (∀ f, o ≠ .function f) → h.object? x = some o →
      h'.object? x = some o) :
    h'.ValueIs low k v := by
  cases k with
  | text | native =>
    obtain ⟨x, rfl, hx⟩ := hv
    exact ⟨x, rfl, hk rfl trivial nofun hx⟩
  | _ => exact hv

theorem mem_children_name (hx : x ∈ f.name) : x ∈ (Object.function f).children :=
  List.mem_append.2 (Or.inl (Option.mem_toList.2 hx))

theorem mem_children_constant {i : Nat} (hv : f.chunk.constants[i]? = some (.object x)) :
    x ∈ (Object.function f).children := by
  refine List.mem_append.2 (Or.inr (List.mem_filterMap.2 ⟨.object x, ?_, rfl⟩))
  exact Array.mem_toList_iff.2 (Array.mem_iff_getElem?.2 ⟨i, hv⟩)

theorem mem_children_addConstant
    (hx : x ∈ (Object.function { f with chunk := f.chunk.addConstant v }).children) :
    x ∈ (Object.function f).children ∨ v = .object x := by
  rcases List.mem_append.1 hx with hx | hx
  · exact .inl (List.mem_append.2 (.inl hx))
  · obtain ⟨w, hw, hwx⟩ := List.mem_filterMap.1 hx
    rw [Chunk.addConstant, Array.toList_push, List.mem_append, List.mem_singleton] at hw
    rcases hw with hw | rfl
    · exact .inl (List.mem_append.2 (.inr (List.mem_filterMap.2 ⟨w, hw, hwx⟩)))
    · cases w with
      | object y =>
        cases hwx
        exact .inr rfl
      | _ => cases hwx

theorem LaidOut.keeps {S : Ref → Prop} (hl : h.LaidOut p r) (hk : h.Keeps S h') (hS : S r) :
    h'.LaidOut p r := by
  induction hl with
  | intro hf hname harity hup hcode hlines hsize hpool hnested ih =>
    have hc := hk.child hS hf trivial
    refine .intro (hk.object_eq hS hf trivial)
      (hname.imp fun hx ho _ h => hk.object_eq (hc _ (mem_children_name hx)) h ho)
      harity hup hcode hlines hsize ?_ fun hq hx => ih hq hx (hc _ (mem_children_constant hx))
    intro i k v hk' hv
    refine (hpool hk' hv).imp ?_
    rintro x o rfl ho - h
    exact hk.object_eq (hc x (mem_children_constant hv)) h ho

theorem Evolves.keeps {roots : List Ref} (he : h.Evolves roots h') (hs : h.Sound)
    (hroots : ∀ x ∈ roots, h.Live x) : h.Keeps (h.Reach roots) h' where
  object_eq hx ho _ := (he.object_eq (hs.live_of_reach hroots hx) (he.kept hx)).trans ho
  child hx ho _ _ hc := .step hx ho hc

theorem LaidOut.evolves {roots : List Ref} (hl : h.LaidOut p r) (he : h.Evolves roots h')
    (hs : h.Sound) (hroots : ∀ x ∈ roots, h.Live x) (hr : h.Reach roots r) : h'.LaidOut p r :=
  hl.keeps (he.keeps hs hroots) hr

/-! ## Functions that grow -/

theorem object?_setObject_of_function {y : Ref} {o' : Object}
    (hf : h.object? x = some (.function f)) (o : Object)
    (ho' : ∀ f, o' ≠ .function f) (hy : h.object? y = some o') :
    (h.setObject x o).object? y = some o' := by
  rw [object?_setObject_of_ne]
  · exact hy
  · rintro rfl
    exact ho' f (Option.some.inj (hy.symm.trans hf))

/-- A change to a function leaves those with higher numbers alone. -/
theorem LaidOut.setObject (hl : h.LaidOut p r) (hlt : x.serial < r.serial)
    (hf : h.object? x = some (.function f)) (o : Object) : (h.setObject x o).LaidOut p r := by
  induction hl with
  | @intro p r f' hf' hname harity hup hcode hlines hsize hpool hnested ih =>
    have hne : x ≠ r := fun heq => Nat.lt_irrefl _ (heq ▸ hlt)
    refine .intro ((object?_setObject_of_ne hne o).trans hf')
      (hname.imp fun _ _ => object?_setObject_of_function hf o) harity
      hup hcode hlines hsize (fun hk hv => (hpool hk hv).imp fun _ _ =>
        object?_setObject_of_function hf o) fun hq hx => ?_
    obtain ⟨y, heq, hy⟩ := hpool hq hx
    cases heq
    exact ih hq hx (Nat.lt_trans hlt hy)

theorem PoolIs.setObject {vs : Array Value} (hp : h.PoolIs r.serial ks vs)
    (hf : h.object? r = some (.function f)) (o : Object) :
    (h.setObject r o).PoolIs r.serial ks vs where
  size_eq := hp.size_eq
  constant hk hv := by
    obtain ⟨hvalue, hnested⟩ := hp.constant hk hv
    refine ⟨hvalue.imp fun _ _ => object?_setObject_of_function hf o, ?_⟩
    rintro q x rfl rfl
    obtain ⟨y, heq, hy⟩ := hvalue
    cases heq
    exact (hnested q x rfl rfl).setObject hy hf o

theorem function?_of_object? (hf : h.object? r = some (.function f)) : h.function? r = some f := by
  simp [Heap.function?, hf]

theorem modifyFunction_eq (hf : h.object? r = some (.function f)) (change : Function → Function) :
    h.modifyFunction r change = h.setObject r (.function (change f)) := by
  simp [modifyFunction, function?_of_object? hf]

/-- A change to a function under way: it may take more constants, and those that it has stay what
they are. -/
theorem Fits.setObject {f' : Function} (hp : h.Fits r.serial p f')
    (hf : h.object? r = some (.function f)) (o : Object) : (h.setObject r o).Fits r.serial p f' :=
  { hp with
    name := hp.name.imp fun _ _ => object?_setObject_of_function hf o
    pool := hp.pool.setObject hf o }

theorem LaidOut.agrees (hl : h.LaidOut p r) (ha : h.Agrees h') : h'.LaidOut p r :=
  hl.keeps (S := fun _ => True) ⟨fun _ ho _ => (ha.object_eq _).trans ho, fun _ _ _ _ _ => trivial⟩
    trivial

/-! ## Heaps under way -/

/-- New objects are such as `F` admits. -/
def Adds (F : Object → Prop) (h h' : Heap) : Prop :=
  ∀ {x o}, h'.Live x → h.cells.size ≤ x.serial → h'.object? x = some o → F o

theorem Allocated.adds {roots : List Ref} {o : Object} (ha : h.Allocated roots o r h') (ho : F o) :
    Adds F h h' := by
  intro x o' hl hge ho'
  rcases ha.live_old hl with rfl | hl
  · rw [ha.object_new] at ho'
    cases ho'
    exact ho
  · exact absurd hl.lt (Nat.not_lt.2 hge)

theorem InternedAs.adds (hF : Object.Admits F) {roots : List Ref} {text : String} {key : Symbol}
    (hi : h.InternedAs roots text key h') : Adds F h h' := by
  intro x o hl hge ho
  rcases hi.live_old hl with rfl | hl
  · rw [hi.object_key] at ho
    cases ho
    exact hF _ trivial
  · exact absurd hl.lt (Nat.not_lt.2 hge)

/-- The heap `h` comes from `h₀` by laying out functions, while `R` are in use. -/
structure Underway (F : Object → Prop) (h₀ : Heap) (R : List Ref) (h : Heap) :
    Prop extends Evolves h₀ R h where
  start : h₀.Sound
  old_roots : ∀ x ∈ R, h₀.Live x
  adds : Adds F h₀ h

namespace Underway

variable {R rs : List Ref}

theorem refl (hs : h.Sound) (hR : ∀ x ∈ R, h.Live x) : Underway F h R h :=
  ⟨.refl hs hR, hs, hR, fun hl hge _ => absurd hl.lt (Nat.not_lt.2 hge)⟩

variable (hu : Underway F h₀ R h)
include hu

theorem step (he : h.Evolves rs h') (hf : Adds F h h') (hsub : ∀ x ∈ R, x ∈ rs) :
    Underway F h₀ R h' := by
  refine ⟨hu.toEvolves.trans hu.start hu.old_roots he hsub, hu.start, hu.old_roots,
    fun {x o} hl hge ho => ?_⟩
  by_cases hlt : x.serial < h.cells.size
  · obtain ⟨hl', heq⟩ := he.old hl hlt
    exact hu.adds hl' hge (heq ▸ ho)
  · exact hf hl (Nat.not_lt.1 hlt) ho

theorem setFunction (hF : Object.Admits F) (hr : h₀.cells.size ≤ r.serial)
    (hf : h.object? r = some (.function f))
    (f' : Function) (hc : ∀ c ∈ (Object.function f').children, h.Live c) :
    Underway F h₀ R (h.setObject r (.function f')) := by
  refine { hu with
    toEvolves := hu.toEvolves.setObject hr hf (by simp) (by simp) hc
    adds := fun {x o} hl hge ho => ?_ }
  rw [object?_setObject] at ho
  split at ho
  · obtain ⟨_, -, rfl⟩ := Option.map_eq_some_iff.1 ho
    exact hF _ trivial
  · exact hu.adds ((live_setObject ..).1 hl) hge ho

theorem agrees (ha : h.Agrees h') : Underway F h₀ R h' :=
  { hu with
    toEvolves := hu.toEvolves.agrees ha
    adds := fun hl hge ho => hu.adds (ha.live_iff.1 hl) hge ((ha.object_eq _).symm.trans ho) }

end Underway

end Heap

/-- A function that is being laid out on each of several heaps: its numbers there, and what it is so
far. -/
structure Stub (ι : Type) where
  ref : ι → Ref
  proto : Proto

/-- A constant that was laid out on each of several heaps. -/
structure Hand (ι : Type) where
  constant : Constant
  value : ι → Value

/-- What is at hand is the name, if there is to be one. -/
def Hand.Names {ι : Type} : Option (Hand ι) → Option String → (ι → Option Ref) → Prop
  | none, none, refs => ∀ i, refs i = none
  | some x, some s, refs => x.constant = .text s ∧ ∀ i, ∃ r, x.value i = .object r ∧ refs i = some r
  | _, _, _ => False

theorem Hand.names_text {ι : Type} (s : String) (a : ι → Ref) :
    Hand.Names (some ⟨.text s, fun i => .object (a i)⟩) (some s) fun i => some (a i) :=
  ⟨rfl, fun i => ⟨a i, rfl, rfl⟩⟩

namespace Heap

variable {F : Object → Prop} {h₀ h h' : Heap} {p : Proto} {f : Function} {r x : Ref} {ι : Type}
  {i : ι} {e : Stub ι}
  {begun : List (Stub ι)} {hand : Option (Hand ι)} {R : List Ref} {roots : Roots}

/-- The roots are `R` and the functions begun. -/
def Covers (R : List Ref) (roots : Roots) (begun : List Ref) : Prop :=
  ∀ x, x ∈ roots.refs ↔ x ∈ R ++ begun

theorem Covers.mem {begun : List Ref} (hroots : Covers R roots begun) :
    ∀ x ∈ begun, x ∈ roots.refs := fun x hx =>
  (hroots x).2 (List.mem_append_right R hx)

/-- The functions `begun` are being laid out, the innermost first. Each was begun on a heap to which
those around it had come. -/
def Laying (F : Object → Prop) (h₀ : Heap) (R : List Ref) (i : ι) : List (Stub ι) → Heap → Prop
  | [], h => Underway F h₀ R h
  | e :: begun, h => ∃ g, Laying F h₀ R i begun g ∧ Underway F g (R ++ begun.map (·.ref i)) h ∧
      g.cells.size ≤ (e.ref i).serial ∧ h.Live (e.ref i) ∧ h.LaidOut e.proto (e.ref i)

namespace Laying

section

variable (hl : Laying F h₀ R i begun h)
include hl

theorem sound : h.Sound := by
  cases begun with
  | nil => exact Evolves.sound (Underway.toEvolves hl)
  | cons e begun =>
    obtain ⟨g, -, hu, -⟩ := hl
    exact hu.sound

theorem live : ∀ x ∈ R ++ begun.map (·.ref i), h.Live x := by
  intro x hx
  cases begun with
  | nil => exact Evolves.live_of_mem (Underway.toEvolves hl) (by simpa using hx)
  | cons e begun =>
    obtain ⟨g, -, hu, -, hlive, -⟩ := hl
    have hmem : x = e.ref i ∨ x ∈ R ++ begun.map (·.ref i) := by
      simp only [List.map_cons, List.mem_append, List.mem_cons] at hx ⊢
      exact or_left_comm.1 hx
    rcases hmem with rfl | hx
    · exact hlive
    · exact hu.live_of_mem hx

theorem step {rs : List Ref} (hrs : ∀ x, x ∈ rs ↔ x ∈ R ++ begun.map (·.ref i)) (he : h.Evolves rs h')
    (hadds : Adds F h h') : Laying F h₀ R i begun h' := by
  have hlive : ∀ x ∈ rs, h.Live x := fun x hx => hl.live x ((hrs x).1 hx)
  have hsound := hl.sound
  cases begun with
  | nil => exact Underway.step hl he hadds fun x hx => (hrs x).2 (List.mem_append_left _ hx)
  | cons e begun =>
    obtain ⟨g, hg, hu, hfresh, -, hlaid⟩ := hl
    have hmem : e.ref i ∈ rs := (hrs _).2 (List.mem_append_right _ List.mem_cons_self)
    have hsub : ∀ x ∈ R ++ begun.map (·.ref i), x ∈ rs := fun x hx =>
      (hrs x).2 ((List.Sublist.append_left (List.sublist_cons_self ..) R).subset hx)
    exact ⟨g, hg, hu.step he hadds hsub, hfresh, he.live_of_mem hmem, hlaid.evolves he hsound hlive
      (.root hmem)⟩

theorem agrees (ha : h.Agrees h') : Laying F h₀ R i begun h' := by
  cases begun with
  | nil => exact Underway.agrees hl ha
  | cons e begun =>
    obtain ⟨g, hg, hu, hfresh, hlive, hlaid⟩ := hl
    exact ⟨g, hg, hu.agrees ha, hfresh, ha.live_iff.2 hlive, hlaid.agrees ha⟩

theorem function (hF : Object.Admits F) (hroots : Covers R roots (begun.map (·.ref i))) {r : ι → Ref}
    (hr : r i = (h.allocate roots (.function {})).1) :
    Laying F h₀ R i (⟨r, {}⟩ :: begun) (h.allocate roots (.function {})).2 := by
  have ha := hl.sound.allocate (fun x hx => hl.live x ((hroots x).1 hx)) (o := .function {}) (by simp)
    (by simp [Object.children, Object.children.values])
  rw [← hr] at ha
  exact ⟨h, hl, (Underway.refl hl.sound hl.live).step ha.toEvolves (ha.adds (hF _ trivial))
    fun x hx => (hroots x).2 hx, ha.fresh, ha.live_new,
    laidOut_iff.2 ⟨{}, ha.object_new, trivial, rfl, rfl, rfl, rfl, poolIs_nil _ _⟩⟩

end

section

variable (hl : Laying F h₀ R i (e :: begun) h)
include hl

theorem pop : Laying F h₀ R i begun h := by
  obtain ⟨g, hg, hu, -⟩ := hl
  exact hg.step (fun _ => Iff.rfl) hu.toEvolves hu.adds

theorem lt {e' : Stub ι} (he' : e' ∈ begun) : (e'.ref i).serial < (e.ref i).serial := by
  obtain ⟨g, hg, -, hfresh, -⟩ := hl
  exact Nat.lt_of_lt_of_le (hg.live _ (List.mem_append_right _ (List.mem_map_of_mem he'))).lt hfresh

theorem modify (hF : Object.Admits F) {p : Proto} (c : Function → Function)
    (hc : ∀ f, h.Fits (e.ref i).serial e.proto f → (∀ x ∈ (Object.function f).children, h.Live x) →
      h.Fits (e.ref i).serial p (c f) ∧ ∀ x ∈ (Object.function (c f)).children, h.Live x) :
    Laying F h₀ R i (⟨e.ref, p⟩ :: begun) (h.modifyFunction (e.ref i) c) := by
  obtain ⟨g, hg, hu, hfresh, hlive, hlaid⟩ := hl
  obtain ⟨f, hf, hfits⟩ := laidOut_iff.1 hlaid
  obtain ⟨hfits', hchildren⟩ := hc f hfits fun x hx => hu.sound.closed hlive hf x hx
  rw [modifyFunction_eq hf]
  exact ⟨g, hg, hu.setFunction hF hfresh hf _ hchildren, hfresh, (live_setObject ..).2 hlive,
    laidOut_iff.2 ⟨_, object?_setObject_self hf _, hfits'.setObject hf _⟩⟩

end

end Laying

/-- The same, with a constant at hand. -/
structure Holding (F : Object → Prop) (h₀ : Heap) (R : List Ref) (i : ι) (begun : List (Stub ι))
    (hand : Option (Hand ι)) (h : Heap) : Prop where
  laying : Laying F h₀ R i begun h
  live : ∀ x ∈ hand, ∀ r, x.value i = .object r → h.Live r
  value : ∀ x ∈ hand, ∀ e ∈ begun, h.ValueIs (e.ref i).serial x.constant (x.value i)
  nested : ∀ x ∈ hand, ∀ q r, x.constant = .function q → x.value i = .object r → h.LaidOut q r

theorem mem_children_named {a : Ref} (hx : x ∈ (Object.function { f with name := some a }).children) :
    x ∈ (Object.function f).children ∨ x = a := by
  rcases List.mem_append.1 hx with hx | hx
  · exact .inr (by simpa using hx)
  · exact .inl (List.mem_append.2 (.inr hx))

/-- The function with all that is known of it at its end. -/
abbrev headed (p : Proto) (f : Function) : Function :=
  { f with
    arity := p.arity
    upvalueCount := p.upvalueCount
    chunk := { f.chunk with code := p.code, lines := p.lines } }

theorem agrees_noteListing (h : Heap) (r : Ref) : h.Agrees (h.noteListing r) := by
  unfold noteListing
  split
  · exact .refl h
  · exact h.agrees_note _

namespace Holding

theorem of_laying (hl : Laying F h₀ R i begun h) : Holding F h₀ R i begun none h :=
  ⟨hl, by simp, by simp, by simp⟩

theorem of_object {k : Constant} {v : ι → Value} (hl : Laying F h₀ R i begun h)
    (hv : v i = .object r) (hlive : h.Live r)
    (hvalue : ∀ low, h.ValueIs low k (.object r)) (hk : ∀ q, k ≠ .function q) :
    Holding F h₀ R i begun (some ⟨k, v⟩) h := by
  refine ⟨hl, ?_, ?_, ?_⟩
  · rintro x ⟨⟩ r' hr'
    cases hv.symm.trans hr'
    exact hlive
  · rintro x ⟨⟩ e -
    show h.ValueIs _ k (v i)
    rw [hv]
    exact hvalue _
  · rintro x ⟨⟩ q r' hq
    exact absurd hq (hk q)

theorem drop (hh : Holding F h₀ R i begun hand h) : Holding F h₀ R i begun none h :=
  .of_laying hh.laying

theorem agrees (hh : Holding F h₀ R i begun hand h) (ha : h.Agrees h') :
    Holding F h₀ R i begun hand h' where
  laying := hh.laying.agrees ha
  live x hx r hr := ha.live_iff.2 (hh.live x hx r hr)
  value x hx e he := ValueIs.imp (hh.value x hx e he) fun _ _ _ ho => (ha.object_eq _).trans ho
  nested x hx q r hq hr := (hh.nested x hx q r hq hr).agrees ha

section

variable (hh : Holding F h₀ R i begun none h) (hroots : Covers R roots (begun.map (·.ref i)))
include hh

theorem plain {v : Value} (hk : ∀ h low, ConstantIs h low k v) (hv : ∀ x, v ≠ .object x) :
    Holding F h₀ R i begun (some ⟨k, fun _ => v⟩) h := by
  refine ⟨hh.laying, ?_, ?_, ?_⟩
  · rintro x ⟨⟩ r hr
    exact absurd hr (hv r)
  · rintro x ⟨⟩ e -
    exact (hk h _).1
  · rintro x ⟨⟩ q r - hr
    exact absurd hr (hv r)

include hroots

theorem intern (hF : Object.Admits F) (s : String) {v : ι → Value}
    (hv : v i = .object (h.intern roots s).1.ref) :
    Holding F h₀ R i begun (some ⟨.text s, v⟩) (h.intern roots s).2 := by
  have hi := hh.laying.sound.intern (fun x hx => hh.laying.live x ((hroots x).1 hx)) s
  exact .of_object (hh.laying.step hroots hi.toEvolves (hi.adds hF)) hv hi.live_key
    (fun _ => ⟨_, rfl, hi.object_key⟩) (by simp)

theorem native {name : String} (hname : F (.native ⟨name, 0, none⟩)) {v : ι → Value}
    (hv : v i = .object (h.allocate roots (.native ⟨name, 0, none⟩)).1) :
    Holding F h₀ R i begun (some ⟨.native name, v⟩)
    (h.allocate roots (.native ⟨name, 0, none⟩)).2 := by
  have ha := hh.laying.sound.allocate (fun x hx => hh.laying.live x ((hroots x).1 hx))
    (o := .native ⟨name, 0, none⟩) (by simp) (by simp [Object.children])
  exact .of_object (hh.laying.step hroots ha.toEvolves (ha.adds hname)) hv ha.live_new
    (fun _ => ⟨_, rfl, ha.object_new⟩) (by simp)

end

theorem names (hh : Holding F h₀ R i begun hand h) {name : Option String} {refs : ι → Option Ref}
    (hname : Hand.Names hand name refs) (he : e ∈ begun) :
    h.NameIs name (refs i) ∧ ∀ x ∈ refs i, h.Live x := by
  cases hand <;> cases name <;> try exact hname.elim
  · rw [hname i]
    exact ⟨trivial, by simp⟩
  · rename_i x s
    obtain ⟨r, hr, hrefs⟩ := hname.2 i
    obtain ⟨y, hy, ho⟩ : h.ValueIs (e.ref i).serial (.text s) (x.value i) :=
      hname.1 ▸ hh.value x rfl e he
    cases hr.symm.trans hy
    rw [hrefs]
    refine ⟨ho, ?_⟩
    rintro _ ⟨⟩
    exact hh.live x rfl r hr

section

variable (hF : Object.Admits F) {r : ι → Ref}
include hF

theorem name {s : String} {a : ι → Ref}
    (hh : Holding F h₀ R i (⟨r, p⟩ :: begun) (some ⟨.text s, fun i => .object (a i)⟩) h) :
    Holding F h₀ R i (⟨r, { p with name := some s }⟩ :: begun) none
      (h.modifyFunction (r i) fun f => { f with name := some (a i) }) := by
  obtain ⟨hname, hlive⟩ := hh.names (Hand.names_text s a) List.mem_cons_self
  refine .of_laying (hh.laying.modify hF _ fun f hfits hf =>
    ⟨{ hfits with name := hname }, fun x hx => ?_⟩)
  rcases mem_children_named hx with hx | rfl
  · exact hf x hx
  · exact hlive _ rfl

theorem start (hh : Holding F h₀ R i (⟨r, {}⟩ :: begun) hand h) (q : Proto) {refs : ι → Option Ref}
    (hname : Hand.Names hand q.name refs) :
    Holding F h₀ R i (⟨r, { q with constants := [] }⟩ :: begun) none
      (h.modifyFunction (r i) fun _ => ⟨refs i, q.arity, q.upvalueCount, ⟨q.code, q.lines, #[]⟩⟩) := by
  obtain ⟨hname, hlive⟩ := hh.names hname List.mem_cons_self
  refine .of_laying (hh.laying.modify hF _ fun _ _ _ =>
    ⟨⟨hname, rfl, rfl, rfl, rfl, poolIs_nil _ _⟩, fun x hx => hlive x ?_⟩)
  simpa [Object.children, Object.children.values] using hx

theorem header (hh : Holding F h₀ R i (⟨r, p⟩ :: begun) none h) (q : Proto) :
    Holding F h₀ R i (⟨r, { q with name := p.name, constants := p.constants }⟩ :: begun) none
      (h.modifyFunction (r i) (headed q)) :=
  .of_laying (hh.laying.modify hF _ fun _ hfits hf =>
    ⟨⟨hfits.name, rfl, rfl, rfl, rfl, hfits.pool⟩, hf⟩)

theorem constant {v : ι → Value} (hh : Holding F h₀ R i (⟨r, p⟩ :: begun) (some ⟨k, v⟩) h) :
    Holding F h₀ R i (⟨r, p.add k⟩ :: begun) none (h.addConstant (r i) (v i)) := by
  refine .of_laying (hh.laying.modify hF _ fun f hfits hf =>
    ⟨⟨hfits.name, hfits.arity, hfits.upvalueCount, hfits.code, hfits.lines,
      hfits.pool.push ⟨hh.value _ rfl _ List.mem_cons_self, hh.nested _ rfl⟩⟩, fun x hx => ?_⟩)
  exact (mem_children_addConstant hx).elim (hf x) (hh.live _ rfl x)

omit hF in
theorem leave (hh : Holding F h₀ R i (⟨r, p⟩ :: begun) none h) :
    Holding F h₀ R i begun (some ⟨.function p, fun i => .object (r i)⟩) h := by
  refine ⟨hh.laying.pop, ?_, ?_, ?_⟩
  · rintro x ⟨⟩ r' ⟨⟩
    exact hh.laying.live _ (List.mem_append_right _ List.mem_cons_self)
  · rintro x ⟨⟩ e he
    exact ⟨r i, rfl, hh.laying.lt he⟩
  · rintro x ⟨⟩ q r' ⟨⟩ ⟨⟩
    obtain ⟨g, -, -, -, -, hlaid⟩ := hh.laying
    exact hlaid

end

end Holding

/-! ## Laying out -/

/-- What is true of heaps and of the functions begun on them, with a constant at hand, and stays so
as functions are laid out on all of them alike. -/
structure Layouts (F : Object → Prop) (R : ι → List Ref) (P : List (Stub ι) → Option (Hand ι) →
      (ι → Heap) → Prop) : Prop where
  plain : ∀ {begun h k v}, P begun none h → (∀ h low, ConstantIs h low k v) → (∀ x, v ≠ .object x) →
    P begun (some ⟨k, fun _ => v⟩) h
  intern : ∀ {begun h} {roots : ι → Roots}, P begun none h →
    (∀ i, Covers (R i) (roots i) (begun.map (·.ref i))) → ∀ s,
    P begun (some ⟨.text s, fun i => .object ((h i).intern (roots i) s).1.ref⟩) fun i =>
    ((h i).intern (roots i) s).2
  native : ∀ {begun h} {roots : ι → Roots}, P begun none h →
    (∀ i, Covers (R i) (roots i) (begun.map (·.ref i))) → ∀ {name}, F (.native ⟨name, 0, none⟩) →
    P begun (some
      ⟨.native name, fun i => .object ((h i).allocate (roots i) (.native ⟨name, 0, none⟩)).1⟩)
      fun i => ((h i).allocate (roots i) (.native ⟨name, 0, none⟩)).2
  function : ∀ {begun h} {roots : ι → Roots}, P begun none h →
    (∀ i, Covers (R i) (roots i) (begun.map (·.ref i))) →
    P (⟨fun i => ((h i).allocate (roots i) (.function {})).1, {}⟩ :: begun) none
      fun i => ((h i).allocate (roots i) (.function {})).2
  name : ∀ {begun h r p s} {a : ι → Ref},
    P (⟨r, p⟩ :: begun) (some ⟨.text s, fun i => .object (a i)⟩) h →
    P (⟨r, { p with name := some s }⟩ :: begun) none
      fun i => (h i).modifyFunction (r i) fun f => { f with name := some (a i) }
  start : ∀ {begun hand h r} (q : Proto) {refs}, P (⟨r, {}⟩ :: begun) hand h →
    Hand.Names hand q.name refs → P (⟨r, { q with constants := [] }⟩ :: begun) none
      fun i => (h i).modifyFunction (r i) fun _ =>
      ⟨refs i, q.arity, q.upvalueCount, ⟨q.code, q.lines, #[]⟩⟩
  header : ∀ {begun h r p} (q : Proto), P (⟨r, p⟩ :: begun) none h →
    P (⟨r, { q with name := p.name, constants := p.constants }⟩ :: begun) none fun i =>
    (h i).modifyFunction (r i) (headed q)
  constant : ∀ {begun h r p k v}, P (⟨r, p⟩ :: begun) (some ⟨k, v⟩) h →
    P (⟨r, p.add k⟩ :: begun) none fun i => (h i).addConstant (r i) (v i)
  recharge : ∀ {begun h r p}, P (⟨r, p⟩ :: begun) none h →
    P begun (some ⟨.function p, fun i => .object (r i)⟩) fun i => (h i).recharge (r i)
  note : ∀ {begun hand h} (r : ι → Ref), P begun hand h → P begun hand fun i => (h i).noteListing (r i)
  drop : ∀ {begun hand h}, P begun hand h → P begun none h

theorem layouts_holding (hF : Object.Admits F) (h₀ : ι → Heap) (R : ι → List Ref) :
    Layouts F R fun begun hand h => ∀ i, Holding F (h₀ i) (R i) i begun hand (h i) where
  plain hh hk hv i := (hh i).plain hk hv
  intern hh hroots s i := (hh i).intern (hroots i) hF s rfl
  native hh hroots _ hname i := (hh i).native (hroots i) hname rfl
  function hh hroots i := .of_laying ((hh i).laying.function hF (hroots i) rfl)
  name hh i := (hh i).name hF
  start q _ hh hname i := (hh i).start hF q hname
  header q hh i := (hh i).header hF q
  constant hh i := (hh i).constant hF
  recharge hh i := (hh i).leave.agrees (agrees_recharge _ _)
  note _ hh i := (hh i).agrees (agrees_noteListing _ _)
  drop hh i := (hh i).drop

theorem refs_pin (roots : Roots) (r : Ref) :
    ({ roots with pins := roots.pins ++ [r] } : Roots).refs = roots.refs ++ [r] := by
  simp [Roots.refs, List.append_assoc]

theorem Covers.pin {begun : List Ref} (hroots : Covers R roots begun) (r : Ref) :
    Covers R { roots with pins := roots.pins ++ [r] } (r :: begun) := by
  intro x
  rw [refs_pin, List.mem_append, hroots x, List.mem_singleton, List.mem_append, List.mem_append,
    List.mem_cons, or_assoc, or_comm (a := x ∈ begun)]

/-- The roots of a compilation, with the functions begun. -/
def withPending (roots : Roots) (pending : List Ref) : Roots := { roots with pending }

theorem covers_pending (roots : Roots) (pending : List Ref) :
    Covers (withPending roots []).refs (withPending roots pending) pending := by
  intro x
  simp only [withPending, Roots.refs, List.mem_append, List.not_mem_nil, or_false]
  rw [or_right_comm]

namespace Layouts

variable {R : ι → List Ref} {P : List (Stub ι) → Option (Hand ι) → (ι → Heap) → Prop}
  (hP : Layouts F R P) {h : ι → Heap} {roots : ι → Roots}

include hP

mutual

theorem layOut (p : Proto) {h : ι → Heap} {begun : List (Stub ι)} {roots : ι → Roots}
    (hh : P begun none h)
    (hroots : ∀ i, Covers (R i) (roots i) (begun.map (·.ref i))) (hp : p.Admitted F) :
    P begun (some ⟨.function p, fun i => .object ((h i).layOut true (roots i) p).1⟩) fun i =>
    ((h i).layOut true (roots i) p).2 := by
  obtain ⟨name, arity, upvalueCount, code, lines, constants⟩ := p
  have ha := hP.function hh hroots
  have hpinned := fun i => (hroots i).pin ((h i).allocate (roots i) (.function {})).1
  have finish : ∀ {hand h' refs},
    P (⟨fun i => ((h i).allocate (roots i) (.function {})).1, {}⟩ :: begun) hand h' →
      Hand.Names hand name refs → _ := fun hstart hname =>
    hP.recharge (layOutAll constants
      (hP.start ⟨name, arity, upvalueCount, code, lines, constants⟩ hstart hname) hpinned hp)
  cases name with
  | none =>
    simp only [Heap.layOut]
    exact finish ha fun _ => rfl
  | some s =>
    simp only [Heap.layOut]
    exact finish (hP.intern ha hpinned s) ⟨rfl, fun _ => ⟨_, rfl, rfl⟩⟩

theorem layOutAll (ks : List Constant) {h : ι → Heap} {begun : List (Stub ι)} {roots : ι → Roots}
    {r : ι → Ref} {p : Proto}
    (hh : P (⟨r, p⟩ :: begun) none h)
    (hroots : ∀ i, Covers (R i) (roots i) (r i :: begun.map (·.ref i)))
    (hks : Constant.AllAdmitted F ks) :
    P (⟨r, { p with constants := p.constants ++ ks }⟩ :: begun) none
      fun i => (h i).layOutAll true (roots i) (r i) ks := by
  cases ks with
  | nil =>
    cases p
    simpa only [Heap.layOutAll, List.append_nil] using hh
  | cons k ks =>
    have hrest := layOutAll ks (hP.constant (layOutConstant k hh hroots hks.1)) hroots hks.2
    simpa only [Heap.layOutAll, Proto.add, List.append_assoc, List.singleton_append] using hrest

theorem layOutConstant (k : Constant) {h : ι → Heap} {begun : List (Stub ι)} {roots : ι → Roots}
    (hh : P begun none h)
    (hroots : ∀ i, Covers (R i) (roots i) (begun.map (·.ref i))) (hk : k.Admitted F) :
    P begun (some ⟨k, fun i => ((h i).layOutConstant true (roots i) k).1⟩) fun i =>
    ((h i).layOutConstant true (roots i) k).2 := by
  cases k with
  | nul | bool b | number y =>
    simp only [Heap.layOutConstant]
    exact hP.plain hh (fun _ _ => ⟨rfl, nofun⟩) (by simp)
  | text s =>
    simp only [Heap.layOutConstant]
    exact hP.intern hh hroots s
  | native name =>
    simp only [Heap.layOutConstant]
    exact hP.native hh hroots hk
  | function p =>
    simp only [Heap.layOutConstant]
    exact layOut p hh hroots hk

end

end Layouts

theorem Layouts.script {roots : ι → Roots} {P : List (Stub ι) → Option (Hand ι) → (ι → Heap) → Prop}
    (hP : Layouts F (fun i => (roots i).refs) P) {h : ι → Heap} (hh : P [] none h) {p : Proto}
    (hp : p.Admitted F) :
    P [] (some ⟨.function p, fun i => .object ((h i).layOut true (roots i) p).1⟩) fun i =>
    ((h i).layOut true (roots i) p).2 :=
  hP.layOut p hh (fun i x => by rw [List.map_nil, List.append_nil]) hp

end Heap

/-! ## Compilations -/

namespace Heap

variable {ι : Type}

/-- A compilation on each of several heaps stands where the plan `g` says. -/
def Planned (P : List (Stub ι) → Option (Hand ι) → (ι → Heap) → Prop) (g : Plan)
    (b : ι → Building) : Prop :=
  ∃ (begun : List (Stub ι)) (hand : Option (Hand ι)) (h : ι → Heap) (fin : ι → Option Ref),
    (b = fun i => ⟨h i, begun.map (·.ref i), fin i, g.astray⟩) ∧ begun.map Stub.proto = g.begun ∧
    P begun hand h ∧
    ∀ q ∈ g.script, ∃ r : ι → Ref, hand = some ⟨.function q, fun i => .object (r i)⟩ ∧
    fin = fun i => some (r i)

/-- On each of the heaps the string at hand is found among the constants of a function where its
text is in what the function is so far. -/
def Finds (P : List (Stub ι) → Option (Hand ι) → (ι → Heap) → Prop) : Prop :=
  ∀ {begun h r p s} {a : ι → Ref}, P (⟨r, p⟩ :: begun) (some ⟨.text s, fun i => .object (a i)⟩) h →
    ∀ i, (h i).refer (r i) (a i) = match p.chunk.firstIndex? (·.isText s) with
      | some index => (index, h i)
      | none => (p.constants.length, (h i).addConstant (r i) (.object (a i)))

namespace Layouts

variable {F : Object → Prop} {roots : ι → Roots} {P : List (Stub ι) → Option (Hand ι) →
  (ι → Heap) → Prop}
  (hP : Layouts F (fun i => (withPending (roots i) []).refs) P) (print : Bool) {g : Plan}
  {b : ι → Building}
include hP

/-- A step that names no global. -/
theorem step_plain {t : Build} (ht : t.Admitted F) (hplain : ∀ s index, t ≠ .name s index)
    (hb : Planned P g b) : Planned P (g.step t) fun i => (b i).step (roots i) print t := by
  obtain ⟨ps, x, astray⟩ := g
  obtain ⟨begun, hand, h, fin, rfl, rfl, hh, hfin⟩ := hb
  have hcovers := fun (begun : List (Stub ι)) i => covers_pending (roots i) (begun.map (·.ref i))
  have hready := hP.drop hh
  cases t with
  | name s index => exact absurd rfl (hplain s index)
  | enter name =>
    have ha := hP.function hready (hcovers begun)
    cases name with
    | none => exact ⟨_, none, _, fin, rfl, rfl, ha, fun _ hq => by cases hq⟩
    | some s =>
      exact ⟨⟨_, { name := some s }⟩ :: begun, none, _, fin, rfl, rfl,
        hP.name (hP.intern ha (hcovers _) s), fun _ hq => by cases hq⟩
  | constant k =>
    have hk := hP.layOutConstant k hready (hcovers begun) ht
    cases begun with
    | nil => exact ⟨[], none, _, fin, rfl, rfl, hP.drop hk, fun _ hq => by cases hq⟩
    | cons e begun =>
      exact ⟨⟨e.ref, e.proto.add k⟩ :: begun, none, _, fin, rfl, rfl, hP.constant hk,
        fun _ hq => by cases hq⟩
  | leave q clean =>
    cases begun with
    | nil => exact ⟨[], hand, h, fin, rfl, rfl, hh, hfin⟩
    | cons e begun =>
      have hdone := hP.recharge (hP.header q hready)
      obtain ⟨h', hheap, hdone⟩ : ∃ h' : ι → Heap, (∀ i, h' i = if print && clean then
          (((h i).modifyFunction (e.ref i) (headed q)).recharge (e.ref i)).noteListing (e.ref i) else
          ((h i).modifyFunction (e.ref i) (headed q)).recharge (e.ref i)) ∧
          P begun (some ⟨.function { q with name := e.proto.name, constants := e.proto.constants },
            fun i => .object (e.ref i)⟩) h' := by
        cases print && clean with
        | true => exact ⟨_, fun _ => rfl, hP.note e.ref hdone⟩
        | false => exact ⟨_, fun _ => rfl, hdone⟩
      simp only [Building.step, List.map_cons, ← hheap]
      cases begun with
      | nil => exact ⟨[], _, _, _, rfl, rfl, hdone, fun _ hq => ⟨_, by cases hq; rfl, rfl⟩⟩
      | cons outer begun =>
        exact ⟨⟨outer.ref, outer.proto.add _⟩ :: begun, none, _, _, rfl, rfl, hP.constant hdone,
          fun _ hq => by cases hq⟩

theorem step (hfinds : Finds P) {t : Build} (ht : t.Admitted F) (hb : Planned P g b) :
    Planned P (g.step t) fun i => (b i).step (roots i) print t := by
  cases t with
  | name s index =>
    obtain ⟨ps, x, astray⟩ := g
    obtain ⟨begun, hand, h, fin, rfl, rfl, hh, -⟩ := hb
    have hi := hP.intern (hP.drop hh) (fun i => covers_pending (roots i) (begun.map (·.ref i))) s
    cases begun with
    | nil => exact ⟨[], none, _, fin, rfl, rfl, hP.drop hi, fun _ hq => by cases hq⟩
    | cons e begun =>
      have hrefer := hfinds hi
      simp only [Building.step, List.map_cons, Plan.step, Proto.refer]
      cases hfirst : e.proto.chunk.firstIndex? (·.isText s) with
      | some found =>
        rw [hfirst] at hrefer
        refine ⟨e :: begun, none, _, fin, funext fun i => ?_, rfl, hP.drop hi, fun _ hq => by cases hq⟩
        exact congrArg (fun r : Nat × Heap => Building.mk r.2 _ (fin i) (astray || r.1 != index))
          (hrefer i)
      | none =>
        rw [hfirst] at hrefer
        refine ⟨⟨e.ref, e.proto.add (.text s)⟩ :: begun, none, _, fin, funext fun i => ?_, rfl,
          hP.constant hi, fun _ hq => by cases hq⟩
        exact congrArg (fun r : Nat × Heap => Building.mk r.2 _ (fin i) (astray || r.1 != index))
          (hrefer i)
  | _ => exact hP.step_plain print ht (by simp) hb

theorem steps (hfinds : Finds P) {builds : List Build} (hbuilds : ∀ t ∈ builds, t.Admitted F)
    (hb : Planned P g b) :
    Planned P (builds.foldl Plan.step g) fun i =>
      builds.foldl (Building.step (roots i) print) (b i) := by
  induction builds generalizing g b with
  | nil => exact hb
  | cons t builds ih =>
    obtain ⟨ht, hbuilds⟩ := List.forall_mem_cons.1 hbuilds
    exact ih hbuilds (hP.step print hfinds ht hb)

omit hP in
theorem planned_start {h : ι → Heap} (hh : P [] none h) : Planned P {} fun i => { heap := h i } :=
  ⟨[], none, h, fun _ => none, rfl, rfl, hh, fun _ hq => by cases hq⟩

end Layouts

theorem refer_cases (h : Heap) (r key : Ref) :
    (h.refer r key).2 = h ∨ (h.refer r key).2 = h.addConstant r (.object key) := by
  unfold refer
  dsimp only
  split
  · exact .inl rfl
  · exact .inr rfl

section

variable {F : Object → Prop} {roots : Roots} {P : List (Stub Unit) → Option (Hand Unit) →
  (Unit → Heap) → Prop}
  (hP : Layouts F (fun _ => (withPending roots []).refs) P) (print : Bool) {g : Plan} {b : Building}
include hP

/-- On a single heap the plan can be taken from what is found there. -/
theorem Layouts.step_single {t : Build} (ht : t.Admitted F) (hb : Planned P g fun _ => b) :
    ∃ g', Planned P g' (fun _ => b.step roots print t) ∧ g'.begun.length = t.depth g.begun.length := by
  cases t with
  | name s index =>
    obtain ⟨begun, hand, h, fin, hb, hbegun, hh, -⟩ := hb
    have hb : b = _ := congrFun hb ()
    subst hb
    have hi := hP.intern (hP.drop hh) (fun i => covers_pending roots (begun.map (·.ref i))) s
    rw [← hbegun]
    cases begun with
    | nil =>
      exact ⟨{ astray := g.astray },
        ⟨[], none, _, fin, rfl, rfl, hP.drop hi, fun _ hq => by cases hq⟩, rfl⟩
    | cons e begun =>
      have hname : ∀ {p h'},
        (((h ()).intern (withPending roots ((e :: begun).map (·.ref ()))) s).2.refer (e.ref ())
          ((h ()).intern (withPending roots ((e :: begun).map (·.ref ()))) s).1.ref).2 = h' →
          P (⟨e.ref, p⟩ :: begun) none (fun _ => h') →
          ∃ g', Planned P g'
          (fun _ => Building.step roots print ⟨h (), (e :: begun).map (·.ref ()), fin (), g.astray⟩
            (.name s index)) ∧ g'.begun.length = ((e :: begun).map Stub.proto).length := by
        rintro p _ rfl hr
        exact ⟨⟨p :: begun.map Stub.proto, none, _⟩,
          ⟨⟨e.ref, p⟩ :: begun, none, _, fin, rfl, rfl, hr, fun _ hq => by cases hq⟩, rfl⟩
      rcases refer_cases _ (e.ref ()) _ with heq | heq
      · exact hname heq (hP.drop hi)
      · exact hname heq (hP.constant hi)
  | _ => exact ⟨_, hP.step_plain print ht (by simp) hb, g.length_step _⟩

theorem Layouts.steps_single {builds : List Build} (hbuilds : ∀ t ∈ builds, t.Admitted F)
    (hb : Planned P g fun _ => b) :
    ∃ g', Planned P g' (fun _ => builds.foldl (Building.step roots print) b) ∧
      g'.begun.length = builds.foldl Build.depth g.begun.length := by
  induction builds generalizing g b with
  | nil => exact ⟨g, hb, rfl⟩
  | cons t builds ih =>
    obtain ⟨ht, hbuilds⟩ := List.forall_mem_cons.1 hbuilds
    obtain ⟨g', hg', hlength⟩ := hP.step_single print ht hb
    rw [List.foldl_cons, List.foldl_cons, ← hlength]
    exact ih hbuilds hg'

end

/-! ## Strings among constants -/

/-- A string is the constant with its text, and no other constant. -/
theorem Sound.isObject_eq {h : Heap} (hs : h.Sound) {a : Ref} {s : String} (ha : h.Live a)
    (ho : h.object? a = some (.text s (hashText s))) {low : Nat} {k : Constant} {v : Value}
    (hk : h.ConstantIs low k v)
    (hv : ∀ x, v = .object x → h.Live x) : v.isObject a = k.isText s := by
  have hne : ∀ {x o}, h.object? x = some o → (∀ s' n, o ≠ .text s' n) →
      (Value.object x).isObject a = false := by
    intro x o hx hnot
    refine beq_eq_false_iff_ne.2 ?_
    rintro rfl
    exact hnot _ _ (Option.some.inj (hx.symm.trans ho))
  obtain ⟨hvalue, hnested⟩ := hk
  cases k with
  | nul | bool | number =>
    obtain rfl := hvalue
    rfl
  | text s' =>
    obtain ⟨x, rfl, hx⟩ := hvalue
    refine Bool.eq_iff_iff.2 (beq_iff_eq.trans (Iff.trans ⟨?_, ?_⟩ beq_iff_eq.symm))
    · rintro rfl
      cases hx.symm.trans ho
      rfl
    · rintro rfl
      exact hs.unique (hv x rfl) ha hx ho
  | native name =>
    obtain ⟨x, rfl, hx⟩ := hvalue
    exact hne hx (by simp)
  | function q =>
    obtain ⟨x, rfl, -⟩ := hvalue
    obtain ⟨f, hf, -⟩ := laidOut_iff.1 (hnested q x rfl rfl)
    exact hne hf (by simp)

/-- **A string is found by its identity where it is found by its text.** -/
theorem PoolIs.firstIndex?_eq {h : Heap} {low : Nat} {p : Proto} {c : Chunk Value}
    (hp : h.PoolIs low p.constants c.constants) {a : Ref} {s : String}
    (heq : ∀ {k v}, h.ConstantIs low k v → v ∈ c.constants → v.isObject a = k.isText s) :
    c.firstIndex? (·.isObject a) = p.chunk.firstIndex? (·.isText s) := by
  have hmap : c.constants.toList.map (·.isObject a) = p.constants.map (·.isText s) := by
    refine List.ext_getElem (by simp [hp.size_eq]) fun i hi hi' => ?_
    rw [List.length_map] at hi hi'
    rw [List.getElem_map, List.getElem_map]
    exact heq (hp.constant (List.getElem?_eq_getElem hi') (by simp at hi; simp [hi])) (by simp)
  have hfind : ∀ {κ : Type} (l : List κ) (q : κ → Bool), l.findIdx? q = (l.map q).findIdx? id :=
    fun l q => by
    rw [List.findIdx?_map]
    rfl
  have hindex : c.constants.findIdx? (·.isObject a) = p.constants.toArray.findIdx? (·.isText s) := by
    rw [List.findIdx?_toArray, hfind, hmap, ← hfind, List.findIdx?_toArray]
  exact congrArg (Option.filter (· < maxConstants)) hindex

theorem Holding.finds {F : Object → Prop} {h₀ : ι → Heap} {R : ι → List Ref} :
    Finds fun begun hand h => ∀ i, Holding F (h₀ i) (R i) i begun hand (h i) := by
  intro begun h r p s a hh i
  obtain ⟨f, hf, hfits⟩ : ∃ f, (h i).object? (r i) = some (.function f) ∧
      (h i).Fits (r i).serial p f := by
    obtain ⟨-, -, -, -, -, hlaid⟩ := (hh i).laying
    exact laidOut_iff.1 hlaid
  have hlive := (hh i).laying.live _ (List.mem_append_right _ List.mem_cons_self)
  obtain ⟨x, hx, ho⟩ := (hh i).value _ rfl _ List.mem_cons_self
  cases hx
  have hfirst : f.chunk.firstIndex? (·.isObject (a i)) = p.chunk.firstIndex? (·.isText s) :=
    hfits.pool.firstIndex?_eq fun hk hv =>
      (hh i).laying.sound.isObject_eq ((hh i).live _ rfl _ rfl) ho hk fun x hx => by
      subst hx
      obtain ⟨j, hj⟩ := Array.mem_iff_getElem?.1 hv
      exact (hh i).laying.sound.closed hlive hf x (mem_children_constant hj)
  unfold refer
  rw [function?_of_object? hf, Option.getD_some]
  dsimp only
  rewrite [hfirst, hfits.pool.size_eq]
  cases p.chunk.firstIndex? (·.isText s) <;> rfl

/-! ## One heap -/

/-- What laying out a function leaves. -/
structure Lays (F : Object → Prop) (h : Heap) (roots : List Ref) (p : Proto) (r : Ref) (h' : Heap) :
    Prop extends Evolves h roots h' where
  live : h'.Live r
  laid : h'.LaidOut p r
  adds : Adds F h h'

theorem Laying.underway {F : Object → Prop} {h₀ h : Heap} {R : List Ref} {i : ι}
    {begun : List (Stub ι)} (hl : Laying F h₀ R i begun h) : Underway F h₀ R h := by
  induction begun with
  | nil => exact hl
  | cons e begun ih => exact ih hl.pop

theorem Holding.lays {F : Object → Prop} {h₀ h : Heap} {R : List Ref} {i : ι} {p : Proto} {r : ι → Ref}
    (hh : Holding F h₀ R i [] (some ⟨.function p, fun i => .object (r i)⟩) h) :
    Lays F h₀ R p (r i) h :=
  ⟨hh.laying.underway.toEvolves, hh.live _ rfl _ rfl, hh.nested _ rfl _ _ rfl rfl,
    hh.laying.underway.adds⟩

section

variable {F : Object → Prop} {h : Heap} {roots : Roots} (hF : Object.Admits F) (hs : h.Sound)
include hF hs

/-- **Laying out** a compiled function. -/
theorem layOut_spec (hroots : ∀ x ∈ roots.refs, h.Live x) {p : Proto} (hp : p.Admitted F) :
    Lays F h roots.refs p (h.layOut true roots p).1 (h.layOut true roots p).2 := by
  have hstart : ∀ i : Unit, Holding F h roots.refs i [] none h :=
    fun _ => .of_laying (Underway.refl hs hroots)
  exact ((layouts_holding hF _ _).script hstart hp ()).lays

variable (hroots : ∀ x ∈ (withPending roots []).refs, h.Live x) (print : Bool) {builds : List Build}
  (hbuilds : ∀ t ∈ builds, t.Admitted F)
include hroots hbuilds

theorem Sound.planned :
    Planned (fun begun hand h' =>
      ∀ i : Unit, Holding F h (withPending roots []).refs i begun hand (h' i))
    (builds.foldl Plan.step {}) fun _ => h.buildAll roots print builds :=
  (layouts_holding hF _ _).steps print Holding.finds hbuilds
    (Layouts.planned_start fun _ => .of_laying (Underway.refl hs hroots))

/-- **Whatever the steps of a compilation**, they add strings, functions and natives and change
nothing else. -/
theorem Sound.building :
    Underway F h (withPending roots []).refs (h.buildAll roots print builds).heap ∧
    ∀ x ∈ (withPending roots (h.buildAll roots print builds).pending).refs,
    (h.buildAll roots print builds).heap.Live x := by
  obtain ⟨begun, hand, h', fin, hb, -, hh, -⟩ := hs.planned hF hroots print hbuilds
  rw [congrFun hb ()]
  exact ⟨(hh ()).laying.underway, fun x hx => (hh ()).laying.live x ((covers_pending roots _ x).1 hx)⟩

/-- **Steps that come to a script** lay it out, and each name is on the heap the constant that it is
in the code. -/
theorem Sound.buildAll {p : Proto} (hp : builds.foldl Plan.step {} = { script := some p }) :
    (h.buildAll roots print builds).astray = false ∧
    ∃ r, (h.buildAll roots print builds).finished = some r ∧
      Lays F h (withPending roots []).refs p r (h.buildAll roots print builds).heap := by
  obtain ⟨begun, hand, h', fin, hb, hbegun, hh, hfin⟩ := hs.planned hF hroots print hbuilds
  rw [hp] at hb hbegun hfin
  obtain ⟨r, rfl, rfl⟩ := hfin p rfl
  obtain rfl : begun = [] := List.map_eq_nil_iff.1 hbegun
  rw [congrFun hb ()]
  exact ⟨rfl, r (), rfl, (hh ()).lays⟩

end

end Heap

end Parlance
