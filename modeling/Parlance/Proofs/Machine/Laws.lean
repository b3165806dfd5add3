/-
  Laws of execution: what the parts of a turn keep to, whatever the machine.
-/
import Parlance.Machine.Step
import Parlance.Native.Builtins

namespace Parlance

/-- What computations may do: the machines they lead to, and the ends they may come to early. -/
structure Custom where
  leads : Machine → Machine → Prop
  halts : Halt → Prop

namespace Exec

variable {α β : Type} {C : Custom} {m : Machine} {x : Exec α} {g : α → Exec β}

/-- From `m` on, the computation keeps to the custom. -/
def ObeysFrom (C : Custom) (x : Exec α) (m : Machine) : Prop :=
  match x m with
  | .ok _ m' => C.leads m m'
  | .error e m' => C.halts e ∧ C.leads m m'

/-- The computation keeps to the custom, from any machine on. -/
class Obeys (C : Custom) (x : Exec α) : Prop where
  run : ∀ m, x.ObeysFrom C m

/-- The custom allows for looking around. -/
class Look (C : Custom) : Prop where
  refl : ∀ m, C.leads m m
  trans : ∀ {m m' m''}, C.leads m m' → C.leads m' m'' → C.leads m m''
  fault : C.halts (.fault .machine)
  jumpTo : ∀ ip, Obeys C (jumpTo ip)
  note : ∀ message, Obeys C (note message)
  readClock : Obeys C Native.readClock
  drawNumber : Obeys C Native.drawNumber

/-- The custom allows for what most computations do. -/
class Law (C : Custom) : Prop extends Look C where
  intern : ∀ s, Obeys C (intern s)
  allocate : ∀ {o}, (∀ s x, o ≠ .text s x) → (∀ u, o ≠ .upvalue u) → Obeys C (allocate o)

attribute [instance] Look.jumpTo Look.note Look.readClock Look.drawNumber Law.intern

theorem Obeys.of_ok (h : ∀ m, ∃ a m', x m = .ok a m' ∧ C.leads m m') : Obeys C x := by
  refine ⟨fun m => ?_⟩
  obtain ⟨a, m', hx, hleads⟩ := h m
  unfold ObeysFrom
  rw [hx]
  exact hleads

/-! ## Rules -/

instance obeys_ite {c : Prop} [Decidable c] {y : Exec α} [hx : Obeys C x] [hy : Obeys C y] :
    Obeys C (if c then x else y) := by
  split
  · exact hx
  · exact hy

instance obeys_discard [hx : Obeys C x] : Obeys C (discard x) := by
  refine ⟨fun m => ?_⟩
  have hrun := hx.run m
  unfold ObeysFrom at hrun ⊢
  have heq : (discard x : Exec PUnit) m = EStateM.map (Function.const α PUnit.unit) x m := rfl
  rw [heq, EStateM.map]
  cases hxm : x m <;> (rw [hxm] at hrun; exact hrun)

theorem Obeys.get_bind {g : Machine → Exec β} (hg : ∀ m, (g m).ObeysFrom C m) : Obeys C (get >>= g) :=
  ⟨fun m => hg m⟩

section

variable [law : Look C]

theorem ObeysFrom.bind (hx : x.ObeysFrom C m) (hg : ∀ a m', x m = .ok a m' → (g a).ObeysFrom C m') :
    (x >>= g).ObeysFrom C m := by
  unfold ObeysFrom at *
  have heq : (x >>= g) m = EStateM.bind x g m := rfl
  rw [heq, EStateM.bind]
  cases hxm : x m with
  | ok a m' =>
    have hga := hg a m' hxm
    rw [hxm] at hx
    dsimp only at hx ⊢
    revert hga
    cases g a m' with
    | ok b m'' => exact law.trans hx
    | error e m'' => exact fun h => ⟨h.1, law.trans hx h.2⟩
  | error e m' =>
    rw [hxm] at hx
    exact hx

instance obeys_pure (a : α) : Obeys C (pure a : Exec α) := ⟨law.refl⟩
instance obeys_get : Obeys C (get : Exec Machine) := ⟨law.refl⟩
instance obeys_fault : Obeys C (fault : Exec α) := ⟨fun m => ⟨law.fault, law.refl m⟩⟩

theorem Obeys.bind (hx : Obeys C x) (hg : ∀ a, Obeys C (g a)) : Obeys C (x >>= g) :=
  ⟨fun m => (hx.run m).bind fun a m' _ => (hg a).run m'⟩

instance obeys_bind [hx : Obeys C x] [hg : ∀ a, Obeys C (g a)] : Obeys C (x >>= g) := hx.bind hg

instance obeys_foldlM {γ : Type} (f : γ → α → Exec γ) [∀ c a, Obeys C (f c a)] (l : List α) (c : γ) :
    Obeys C (l.foldlM f c) := by
  induction l generalizing c with
  | nil =>
    rw [List.foldlM_nil]
    infer_instance
  | cons a l ih =>
    rw [List.foldlM_cons]
    infer_instance

/-! ## Computations of the machine -/

instance obeys_need (o : Option α) : Obeys C (need o) := by
  cases o <;> unfold need <;> infer_instance

instance obeys_peek (distance : Nat) : Obeys C (peek distance) := by unfold peek; infer_instance
instance obeys_top (n : Nat) : Obeys C (top n) := by unfold top; infer_instance
instance obeys_getSlot (i : Nat) : Obeys C (getSlot i) := by unfold getSlot; infer_instance
instance obeys_text (v : Value) : Obeys C (text v) := by unfold text; infer_instance
instance obeys_typeName (v : Value) : Obeys C (typeName v) := by unfold typeName; infer_instance
instance obeys_object (r : Ref) : Obeys C (object r) := by unfold object; infer_instance
instance obeys_symbol (v : Value) : Obeys C (symbol v) := by unfold symbol; split <;> infer_instance
instance obeys_function (r : Ref) : Obeys C (function r) := by unfold function; infer_instance
instance obeys_frame : Obeys C frame := by unfold frame; infer_instance

instance obeys_functionOf (f : Frame) : Obeys C (functionOf f) := by
  refine .bind inferInstance fun m => ?_
  split <;> infer_instance

instance obeys_readByte : Obeys C readByte := by unfold readByte; infer_instance
instance obeys_readShort : Obeys C readShort := by unfold readShort; infer_instance
instance obeys_readConstant : Obeys C readConstant := by unfold readConstant; infer_instance

instance obeys_upvalue (r : Ref) : Obeys C (upvalue r) := by
  refine .bind inferInstance fun o => ?_
  split <;> infer_instance

instance obeys_splitOpen (slot : Nat) (us : List Ref) : Obeys C (splitOpen slot us) := by
  induction us with
  | nil =>
    unfold splitOpen
    infer_instance
  | cons r rest ih =>
    unfold splitOpen
    infer_instance

instance obeys_readUpvalue (r : Ref) : Obeys C (readUpvalue r) := by unfold readUpvalue; infer_instance

instance obeys_upvalueOf (closure : Ref) (i : Nat) : Obeys C (upvalueOf closure i) := by
  refine .bind inferInstance fun o => ?_
  split <;> infer_instance

instance obeys_traceOf (fs : List Frame) : Obeys C (traceOf fs) := by
  induction fs with
  | nil =>
    unfold traceOf
    infer_instance
  | cons f fs ih =>
    unfold traceOf
    infer_instance

instance obeys_charsOf (v : Value) : Obeys C (charsOf v) := by unfold charsOf; split <;> infer_instance
instance obeys_texts (vs : List Value) : Obeys C (texts vs) := by unfold texts; infer_instance

instance obeys_noteInstruction : Obeys C noteInstruction := by
  unfold noteInstruction
  refine .bind inferInstance fun m => .bind inferInstance fun shown => .bind inferInstance fun f =>
    .bind inferInstance fun function => .bind inferInstance fun listed => ?_
  split
  infer_instance

end

variable [law : Law C]

instance obeys_newClosure (r : Ref) : Obeys C (newClosure r) := by
  have : ∀ n : Nat, Obeys C (allocate (.closure (some r) (Array.replicate n none))) :=
    fun _ => law.allocate nofun nofun
  unfold newClosure
  infer_instance

instance obeys_allocate_native (n : Native) : Obeys C (allocate (.native n)) :=
  law.allocate nofun nofun

end Exec

/-! ## The natives of the language -/

namespace Native

open Exec

variable {C : Custom}

section

variable [Look C]

instance obeys_convert (k : Kind) (v : Value) : Obeys C (convert k v) := by
  unfold convert
  dsimp only
  split
  case h_5 =>
    refine .bind inferInstance fun m => ?_
    split <;> infer_instance
  all_goals infer_instance

instance obeys_convertAll (position : Nat) (ks : List Kind) (vs : List Value) :
    Obeys C (convertAll position ks vs) := by
  fun_induction convertAll position ks vs with
  | case1 position k ks v vs ih =>
    refine .bind inferInstance fun a => ?_
    cases a with
    | error e => infer_instance
    | ok b =>
      refine .bind ih fun as => ?_
      cases as <;> infer_instance
  | case2 => infer_instance
  | case3 => infer_instance

instance obeys_toNumber (v : Value) : Obeys C (toNumber v) := by
  unfold toNumber
  split
  · infer_instance
  · infer_instance
  · extract_lets read
    have hread : ∀ chars, Obeys C (read chars) := by
      intro chars
      cases chars with
      | none => exact .bind inferInstance fun _ => inferInstance
      | some s =>
        dsimp only [read]
        split <;> infer_instance
    split <;> infer_instance

theorem builtins_obey {b : Builtin} (hb : b ∈ builtins) (as : List Argument) :
    Obeys C (b.function.run as) := by
  revert b
  simp only [builtins, List.forall_mem_cons, List.not_mem_nil, false_imp_iff, implies_true, and_true]
  and_intros
  all_goals
    simp only [onNumber, onNumbers, onText, onAny, supply, numberOf, lengthOf, squareRoot]
    first
      | infer_instance
      | (split <;> infer_instance)

end

theorem exists_of_mem_host {r : Routine} (hr : r ∈ builtinLibrary.host) :
    ∃ b ∈ builtins, r = b.function.routine := by
  simp only [Library.host, builtinLibrary, List.map_toArray, List.mem_toArray, List.mem_map] at hr
  obtain ⟨_, ⟨b, hb, rfl⟩, rfl⟩ := hr
  exact ⟨b, hb, rfl⟩

variable [Law C]

instance obeys_toValue (r : Result) : Obeys C r.toValue := by
  unfold Result.toValue
  split <;> infer_instance

theorem HostFunction.obeys_routine {f : HostFunction} (hf : ∀ as, Obeys C (f.run as)) (name : String)
    (vs : List Value) : Obeys C (f.routine name vs) := by
  unfold HostFunction.routine
  refine .bind inferInstance fun a => ?_
  cases a with
  | error e => infer_instance
  | ok as =>
    refine .bind (hf as) fun a => ?_
    cases a <;> infer_instance

/-- **The natives of the language keep to every law.** -/
theorem obeys_of_mem_host {r : Routine} (hr : r ∈ builtinLibrary.host) (name : String)
    (vs : List Value) : Obeys C (r name vs) := by
  obtain ⟨b, hb, rfl⟩ := exists_of_mem_host hr
  exact HostFunction.obeys_routine (builtins_obey hb) name vs

end Native

end Parlance
