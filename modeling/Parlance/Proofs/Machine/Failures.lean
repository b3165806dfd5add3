/-
  Failures without effect.

  Closing the open variables comes last in a failure, when operands are gone already. It finds the
  values of all of them below, or ends in a fault.
-/
import Parlance.Proofs.Machine.Endings

namespace Parlance

-- no statement here looks into compilations or collections
attribute [local irreducible] compileTokens Heap.collect

/-- A key that is bound and unbound leaves the table with what it held. -/
theorem Table.Valid.holds_erase_set {α : Type} {t : Table α} {key k : Symbol} {v w : α} (ht : t.Valid)
    (hknows : t.Knows key) (hnew : (t.set key w).1 = true) :
    ((t.set key w).2.erase key).2.Holds k v ↔ t.Holds k v := by
  obtain ⟨hvalid, hset, hfresh⟩ := ht.set_spec hknows w
  have hknows' : (t.set key w).2.Knows key := by
    intro k' v' hk' href
    rcases hset.1 hk' with ⟨rfl, -⟩ | ⟨hne, -⟩
    · rfl
    · exact (hne href).elim
  obtain ⟨-, herase, -⟩ := hvalid.erase_spec hknows'
  rw [herase, hset]
  constructor
  · rintro ⟨hne, ⟨rfl, -⟩ | ⟨-, hk⟩⟩
    · exact (hne rfl).elim
    · exact hk
  · intro hk
    have hne : k.ref ≠ key.ref := by
      intro href
      obtain rfl := hknows k v hk href
      exact hfresh.1 hnew v hk
    exact ⟨hne, Or.inr ⟨hne, hk⟩⟩

/-! ## What scripts can tell -/

namespace Machine

variable {m₀ m m' m'' : Machine} {host : Host} {r : Ref} {i : Nat}

/-- The value of a captured variable. -/
def captured? (m : Machine) (r : Ref) : Option Value :=
  match m.heap.object? r with
  | some (.upvalue u) => if u.isOpen then m.stack.get? u.slot else some u.closed
  | _ => none

theorem captured?_of_open (hi : m.heap.openSlot? r = some i) : m.captured? r = m.stack.get? i := by
  obtain ⟨u, hu, hopen, rfl⟩ := Heap.openSlot?_eq_some hi
  simp [captured?, hu, hopen]

/-- The value of a variable that is not open depends on the heap alone. -/
theorem captured?_of_closed (hr : m.heap.openSlot? r = none)
    (ho : m'.heap.object? r = m.heap.object? r) : m'.captured? r = m.captured? r := by
  unfold captured?
  rw [ho]
  split
  · rename_i u hu
    rw [Heap.openSlot?_eq hu] at hr
    have hclosed : u.isOpen = false := by simpa [Object.openSlot?] using hr
    simp [hclosed]
  · rfl

/-- Nothing that a script can tell is different. -/
structure Unharmed (m m' : Machine) : Prop where
  out_eq : m'.out = m.out
  holds_iff : ∀ {k v}, m'.globals.Holds k v ↔ m.globals.Holds k v
  captured_eq : ∀ r, m'.captured? r = m.captured? r
  object_eq : ∀ {r}, m.heap.openSlot? r = none → m'.heap.object? r = m.heap.object? r

theorem global?_eq (hs : m.Sound) (hs' : m'.Sound) (hholds : ∀ {k v}, m'.globals.Holds k v ↔
      m.globals.Holds k v)
    (name : String) : m'.global? name = m.global? name := by
  refine Option.ext fun v => ?_
  simp only [hs.global?_eq_some_iff, hs'.global?_eq_some_iff, hholds]

/-- Instructions were read, and something noted. -/
structure Still (m m' : Machine) : Prop where
  out_eq : m'.out = m.out
  globals_eq : m'.globals = m.globals
  stack_eq : m'.stack = m.stack
  opens_eq : m'.openUpvalues = m.openUpvalues
  object_eq : ∀ r, m'.heap.object? r = m.heap.object? r

theorem Still.trans (h : m.Still m') (h' : m'.Still m'') : m.Still m'' :=
  ⟨h'.out_eq.trans h.out_eq, h'.globals_eq.trans h.globals_eq, h'.stack_eq.trans h.stack_eq,
    h'.opens_eq.trans h.opens_eq, fun r => (h'.object_eq r).trans (h.object_eq r)⟩

/-- In the middle of a turn from `m₀` nothing has come of it yet. Open variables have their value,
or their slot is gone. -/
structure Untouched (m₀ m : Machine) : Prop where
  out_eq : m.out = m₀.out
  holds_iff : ∀ {k v}, m.globals.Holds k v ↔ m₀.globals.Holds k v
  opens_eq : m.openUpvalues = m₀.openUpvalues
  object_eq : ∀ r, m.heap.object? r = m₀.heap.object? r
  slots : ∀ {r i v}, m₀.heap.openSlot? r = some i → m.stack.get? i = some v → m₀.stack.get? i = some v

theorem Still.untouched (h : m₀.Still m) : m₀.Untouched m :=
  ⟨h.out_eq, fun {k v} => by rw [h.globals_eq], h.opens_eq, h.object_eq, fun _ hv => h.stack_eq ▸ hv⟩

theorem Untouched.still (h : m₀.Untouched m) (h' : m.Still m') : m₀.Untouched m' :=
  ⟨h'.out_eq.trans h.out_eq, fun {k v} => by rw [h'.globals_eq, h.holds_iff],
    h'.opens_eq.trans h.opens_eq,
    fun r => (h'.object_eq r).trans (h.object_eq r), fun hi hv => h.slots hi (h'.stack_eq ▸ hv)⟩

theorem Untouched.pop (h : m₀.Untouched m) :
    m₀.Untouched { m with stack := m.stack.cutTo (m.stack.depth - 1) } :=
  { h with slots := fun hi hv => h.slots hi (Exec.get?_of_cutTo (Nat.sub_le _ _) hv) }

theorem Untouched.openSlot?_eq (h : m₀.Untouched m) (r : Ref) :
    m.heap.openSlot? r = m₀.heap.openSlot? r := by
  unfold Heap.openSlot?
  rw [h.object_eq]

theorem Untouched.tethered (h : m₀.Untouched m) (h0 : m₀.Tethered) : m.Tethered :=
  ⟨fun r => by rw [h.opens_eq, h.openSlot?_eq, h0.mem_iff], h.opens_eq ▸ h0.nodup⟩

theorem Untouched.unharmed (h : m₀.Untouched m) (hshuts : m.Shuts m') (hopens : m'.openUpvalues = []) :
    m₀.Unharmed { m' with stack := m'.stack.cutTo 0, frames := #[] } := by
  have hsame : m'.out = m.out ∧ m'.globals = m.globals :=
    ⟨congrArg (·.out) hshuts.abandon_eq, congrArg (·.globals) hshuts.abandon_eq⟩
  have hobject : ∀ {r}, m₀.heap.openSlot? r = none → m'.heap.object? r = m₀.heap.object? r :=
    fun hr => (hshuts.others ((h.openSlot?_eq _).trans hr)).trans (h.object_eq _)
  refine ⟨hsame.1.trans h.out_eq, fun {k v} => ?_, fun r => ?_, hobject⟩
  · show m'.globals.Holds k v ↔ _
    rw [hsame.2, h.holds_iff]
  cases hslot : m₀.heap.openSlot? r with
  | none => exact captured?_of_closed hslot (hobject hslot)
  | some i =>
    rcases hshuts.opens ((h.openSlot?_eq r).trans hslot) with hopen | ⟨v, hv, ho⟩
    · have hmem : r ∈ m'.openUpvalues := (hshuts.tethered.mem_iff r).2 (by rw [hopen]; rfl)
      rw [hopens] at hmem
      cases hmem
    · rw [captured?_of_open hslot, h.slots hslot hv]
      simp [captured?, ho]

end Machine

/-- Routines that refuse their arguments have done nothing. -/
def Scrupulous (host : Host) : Prop :=
  ∀ {routine name vs m m' message}, routine ∈ host → routine name vs m = .ok (.error message) m' →
    Machine.Still m m'

/-! ## Computations that fail -/

namespace Exec

variable {α β : Type} {m₀ m m' : Machine} {host : Host} {x : Exec α} {g : α → Exec β} {a : α}
  {e : RuntimeError} {P : RuntimeError → Machine → Prop} {failure : Failure}

/-- Reading instructions is a custom. -/
def still : Custom := ⟨Machine.Still, fun e => ∃ f, e = .fault f⟩

instance look_still : Look still where
  refl _ := ⟨rfl, rfl, rfl, rfl, fun _ => rfl⟩
  trans := .trans
  fault := ⟨_, rfl⟩
  jumpTo _ := .of_ok fun _ => ⟨_, _, rfl, rfl, rfl, rfl, rfl, fun _ => rfl⟩
  note message :=
    .of_ok fun m => ⟨_, _, rfl, rfl, rfl, rfl, rfl, (m.heap.agrees_note message).object_eq⟩
  readClock := .of_ok fun _ => ⟨_, _, rfl, rfl, rfl, rfl, rfl, fun _ => rfl⟩
  drawNumber := .of_ok fun _ => ⟨_, _, rfl, rfl, rfl, rfl, rfl, fun _ => rfl⟩

/-- Anything but failing is a custom. -/
def sober : Custom := ⟨fun _ _ => True, fun e => ∃ f, e = .fault f⟩

instance work_sober : Work sober := ⟨fun _ => trivial, fun _ _ => trivial, ⟨_, rfl⟩⟩

instance sober_modify (f : Machine → Machine) : Obeys sober (modify f : Exec Unit) :=
  .of_ok fun _ => ⟨_, _, rfl, trivial⟩

instance sober_set (m : Machine) : Obeys sober (set m : Exec Unit) :=
  .of_ok fun _ => ⟨_, _, rfl, trivial⟩

theorem Obeys.still (hx : Obeys still x) (h : x m = .ok a m') : m.Still m' := by
  have hrun := hx.run m
  unfold ObeysFrom at hrun
  rwa [h] at hrun

/-- Where the computation fails, it is with an error and a machine in `P`. -/
def Fails (P : RuntimeError → Machine → Prop) (x : Exec α) (m : Machine) : Prop :=
  ∀ e m', x m = .error (.failed e) m' → P e m'

namespace Fails

theorem bind (hx : Fails P x m) (hg : ∀ a m', x m = .ok a m' → Fails P (g a) m') :
    Fails P (x >>= g) m := by
  intro e m' h
  cases hxm : x m with
  | ok a m1 =>
    rw [run_bind hxm] at h
    exact hg a m1 hxm e m' h
  | error e1 m1 =>
    rw [run_bind_error hxm] at h
    cases h
    exact hx _ _ hxm

theorem bind_ok (hx : x m = .ok a m') (hg : Fails P (g a) m') : Fails P (x >>= g) m := by
  intro e m1 h
  rw [run_bind hx] at h
  exact hg e m1 h

theorem of_halts {C : Custom} (hC : ∀ e, ¬ C.halts (.failed e)) [hx : Obeys C x] : Fails P x m := by
  intro e m' h
  have hrun := hx.run m
  unfold ObeysFrom at hrun
  rw [h] at hrun
  exact (hC e hrun.1).elim

theorem sober [Obeys sober x] : Fails P x m := of_halts (C := Exec.sober) (by rintro _ ⟨_, h⟩; cases h)

theorem look_bind [hx : Obeys still x] (hm : m₀.Still m)
    (hg : ∀ a m', x m = .ok a m' → m₀.Still m' → Fails P (g a) m') : Fails P (x >>= g) m :=
  .bind (of_halts (C := still) (by rintro _ ⟨_, h⟩; cases h)) fun a m' h =>
    hg a m' h (hm.trans (hx.still h))

end Fails

/-- Where a failure ends: calls were traced, and all open variables closed. -/
theorem raise_failed (h : (raise failure : Exec α) m = .error (.failed e) m') : e.failure = failure ∧
    ∃ m1 m2, m.Still m1 ∧ closeFrom 0 m1 = .ok () m2 ∧
      m' = { m2 with stack := m2.stack.cutTo 0, frames := #[] } := by
  have hfails :
    Fails (fun e m' => e.failure = failure ∧ ∃ m1 m2, m.Still m1 ∧ closeFrom 0 m1 = .ok () m2 ∧
      m' = { m2 with stack := m2.stack.cutTo 0, frames := #[] }) (raise failure : Exec α) m := by
    refine .look_bind (Look.refl (C := still) m) fun n m1 _ hm1 =>
      .look_bind hm1 fun trace m2 _ hm2 => ?_
    refine .bind .sober fun _ m3 hreset => ?_
    intro e m' hthrow
    obtain ⟨_, m4, hclose, hreset⟩ := exists_of_run_bind hreset
    cases hreset
    cases hthrow
    refine ⟨?_, m2, m4, hm2, hclose, rfl⟩
    cases trace <;> rfl
  exact hfails e m' h

/-- What is to be shown of failures in a turn from `m₀`. Those of natives depend on the host. -/
def Harmless (host : Host) (m₀ : Machine) (e : RuntimeError) (m' : Machine) : Prop :=
  (∀ message, e.failure = .native message → Scrupulous host) → m₀.Unharmed m'

/-- **A failure** when nothing has come of the turn yet leaves the machine unharmed. -/
theorem Fails.raise (h0 : m₀.Tethered) (hm : m₀.Untouched m) :
    Fails (Harmless host m₀) (raise failure : Exec α) m := by
  intro e m' h _
  obtain ⟨-, m1, m2, hstill, hclose, rfl⟩ := raise_failed h
  have hm1 := hm.still hstill
  have hshuts := closeFrom_tidies 0 (hm1.tethered h0)
  unfold Tidies at hshuts
  rw [hclose] at hshuts
  exact hm1.unharmed hshuts.1 (hshuts.2 rfl)

theorem Fails.pop_bind {g : PUnit → Exec β} (hm : m₀.Untouched m)
    (hg : ∀ m', m₀.Untouched m' → Fails P (g ⟨⟩) m') : Fails P (discard pop >>= g) m := by
  refine .bind .sober fun _ m' h => ?_
  have hpop := (pop_tidies m).discard
  unfold Tidies at hpop
  rw [h] at hpop
  obtain ⟨_, rfl⟩ := hpop
  exact hg _ hm.pop

/-- If nothing has come of the turn before the computation, its failures leave the machine
unharmed. -/
class Forgoes (host : Host) (x : Exec α) : Prop where
  run : ∀ {m₀ m : Machine}, m₀.Tethered → m₀.Untouched m → Fails (Harmless host m₀) x m

instance forgoes_sober [Obeys sober x] : Forgoes host x := ⟨fun _ _ => .sober⟩

theorem Forgoes.look [Obeys still x] (hg : ∀ a, Forgoes host (g a)) : Forgoes host (x >>= g) :=
  ⟨fun {_ m} h0 hm => .look_bind (Look.refl (C := still) m) fun a _ _ hm1 =>
    (hg a).run h0 (hm.still hm1)⟩

theorem Forgoes.pops {g : PUnit → Exec β} (hg : Forgoes host (g ⟨⟩)) :
    Forgoes host (discard pop >>= g) :=
  ⟨fun h0 hm => .pop_bind hm fun _ hm' => hg.run h0 hm'⟩

instance forgoes_still_bind [Obeys still x] [∀ a, Forgoes host (g a)] : Forgoes host (x >>= g) :=
  .look inferInstance

instance forgoes_raise (failure : Failure) : Forgoes host (raise failure : Exec α) := ⟨.raise⟩

instance forgoes_raise_bind (failure : Failure) : Forgoes host ((raise failure : Exec α) >>= g) :=
  ⟨fun h0 hm => .bind (.raise h0 hm) fun _ _ h => (raise_ne_ok h).elim⟩

instance forgoes_bind_sober [hx : Forgoes host x] [∀ a, Obeys sober (g a)] : Forgoes host (x >>= g) :=
  ⟨fun h0 hm => .bind (hx.run h0 hm) fun _ _ _ => .sober⟩

/-! ## Instructions that can fail -/

instance forgoes_performArithmetic (op : Op) : Forgoes host (performArithmetic op) := by
  refine .look fun top => ?_
  have : Obeys still (match top with | .number _ => peek 1 | _ => pure .nul) := by
    split <;> infer_instance
  refine .look fun second => ?_
  split
  · refine .pops (.pops ?_)
    split <;> infer_instance
  · infer_instance

instance forgoes_performAdd : Forgoes host performAdd := by
  refine .look fun b => .look fun a => ?_
  split
  · infer_instance
  · refine .look fun s? => .look fun t? => ?_
    split <;> infer_instance

theorem symbol_ok {v : Value} {key : Symbol} (h : symbol v m = .ok key m') :
    m.heap.object? key.ref = some (.text key.text key.hash) := by
  cases v with
  | object r =>
    have hkey : m.heap.symbol? r = some key := need_eq_some h
    unfold Heap.symbol? at hkey
    split at hkey
    · rename_i ho
      cases hkey
      exact ho
    · cases hkey
  | _ => cases h

/-- An undefined global is bound first, and unbound again. -/
theorem performSetGlobal_fails (h0 : m₀.Tethered) (hs : m₀.Sound) (hm : m₀.Still m) :
    Fails (Harmless host m₀) performSetGlobal m := by
  unfold performSetGlobal
  refine .look_bind hm fun k m1 _ hm1 => .look_bind hm1 fun key m2 hkey hm2 =>
    .look_bind hm2 fun v m3 _ hm3 =>
    .bind_ok (x := get) rfl ?_
  have hknows : m₀.globals.Knows key := hs.knows ((hm1.object_eq _).symm.trans (symbol_ok hkey))
  have hholds := fun {k w} => hs.table.holds_erase_set (k := k) (v := w) (w := v) hknows
  rw [hm3.globals_eq]
  generalize m₀.globals.set key v = put at hholds
  obtain ⟨isNew, globals⟩ := put
  dsimp only at hholds ⊢
  split
  · rename_i hnew
    exact .bind_ok (x := set _) rfl (.raise h0 { hm3.untouched with holds_iff := hholds hnew })
  · exact .sober

instance forgoes_enterCall (closure : Ref) (function : Option Ref) (argc : Nat) :
    Forgoes host (enterCall closure function argc) := by
  refine .look fun r => .look fun f => ?_
  dsimp only
  split
  · infer_instance
  · refine .look fun m => ?_
    split <;> infer_instance

instance forgoes_callNative [hhost : SparesHost host] (n : Native) (argc : Nat) :
    Forgoes host (callNative host n argc) := by
  unfold callNative
  dsimp only
  split
  · infer_instance
  · refine .look fun vs => .look fun _ => ⟨fun {m₀ m} h0 hm => ?_⟩
    refine .look_bind (Look.refl (C := still) m) fun routine m1 hneed hm1 => ?_
    have hmem := mem_host_of_need hneed
    refine .bind ?_ fun a m2 hroutine => ?_
    · intro e m' h
      have hspares := hhost.routine routine hmem n.name vs m1
      unfold Holds at hspares
      rw [h] at hspares
      exact hspares.elim
    · cases a with
      | error message =>
        intro e m' h hnative
        have hstill := hnative message (raise_failed h).1 hmem hroutine
        exact (Fails.raise h0 (hm.still (hm1.trans hstill)) : Fails (Harmless host m₀) _ m2)
          e m' h hnative
      | ok result => exact .sober

instance forgoes_callValue [SparesHost host] (callee : Value) (argc : Nat) :
    Forgoes host (callValue host callee argc) := by
  unfold callValue
  split
  · refine .look fun o => ?_
    split <;> infer_instance
  · infer_instance

set_option synthInstance.maxSize 256 in
theorem perform_fails [SparesHost host] (h0 : m₀.Tethered) (hs : m₀.Sound)
    (hm : m₀.Still m) (op : Op) : Fails (Harmless host m₀) (perform host op) m := by
  have hgoes : ∀ {x : Exec Progress}, Forgoes host x → Fails (Harmless host m₀) x m :=
    fun hx => hx.run h0 hm.untouched
  unfold perform
  cases op with
  | getGlobal =>
    refine hgoes (.look fun v => .look fun key => .look fun _ => ?_)
    split <;> infer_instance
  | defineGlobal =>
    exact hgoes (.look fun _ => .look fun key => .look fun v => inferInstance)
  | setGlobal => exact .bind (performSetGlobal_fails h0 hs hm) fun _ _ _ => .sober
  | negate =>
    refine hgoes (.look fun v => ?_)
    split <;> infer_instance
  | _ => exact hgoes (by dsimp only; infer_instance)

/-- **A turn that fails** leaves the machine unharmed. -/
theorem step_fails [SparesHost host] (hm : m.Tethered) (hs : m.Sound) :
    Fails (Harmless host m) (step host) m := by
  have hstart := Look.refl (C := still) m
  unfold step
  refine .look_bind hstart fun _ m1 _ hm1 => ?_
  dsimp only
  split
  · exact .bind_ok (x := modify _) rfl (Forgoes.run hm
      { hm1.untouched with slots := hm1.untouched.slots })
  · refine .look_bind hm1 fun _ m2 _ hm2 => ?_
    split
    on_goal 1 => refine .look_bind hm2 fun _ m3 _ hm2 => ?_
    all_goals
      refine .look_bind hm2 fun byte m4 _ hm4 => ?_
      split
      · exact perform_fails hm hs hm4 _
      · exact .raise hm hm4.untouched

end Exec

theorem Native.scrupulous_builtins : Scrupulous builtinLibrary.host := by
  intro routine name vs m m' message hmem h
  obtain ⟨b, hb, rfl⟩ := exists_of_mem_host hmem
  unfold HostFunction.routine at h
  obtain ⟨as, m1, hconvert, h⟩ := Exec.exists_of_run_bind h
  have hm1 := Exec.Obeys.still inferInstance hconvert
  cases as with
  | error e =>
    cases h
    exact hm1
  | ok as =>
    obtain ⟨a, m2, hrun, h⟩ := Exec.exists_of_run_bind h
    have hm2 := (builtins_obey hb as).still hrun
    cases a with
    | error e =>
      cases h
      exact hm1.trans hm2
    | ok result =>
      obtain ⟨v, m3, -, h⟩ := Exec.exists_of_run_bind h
      cases h

/-! ## Runs -/

namespace Machine

variable {V : Vetting} {p : Proto} {m m' : Machine} {host : Host} {turns : Nat} {file : String}
  {r : Ref} {e : RuntimeError}

theorem settle_failed {α : Type} {result : EStateM.Result Halt Machine α}
    (hfault : ∀ f, e.failure ≠ .fault f)
    (h : settle result = (.error e, m')) : result = .error (.failed e) m' := by
  cases result with
  | ok a m => cases h
  | error halt m =>
    cases halt with
    | failed e => cases h; rfl
    | fault f =>
      cases h
      exact (hfault f rfl).elim

theorem runFor_failed (turns : Nat) (h : (Exec.runFor host turns) m = .error (.failed e) m') :
    ∃ before, During host m before ∧ (Exec.step host) before = .error (.failed e) m' := by
  induction turns generalizing m with
  | zero => cases h
  | succ turns ih =>
    rw [Exec.runFor] at h
    cases hstep : (Exec.step host) m with
    | error e1 m1 =>
      rw [Exec.run_bind_error hstep] at h
      cases h
      exact ⟨m, .start, hstep⟩
    | ok progress m1 =>
      rw [Exec.run_bind hstep] at h
      cases progress with
      | finished => cases h
      | running =>
        obtain ⟨before, hd, hfailed⟩ := ih h
        exact ⟨before, (During.turn .start hstep).trans hd, hfailed⟩

theorem resume_failed (hfault : ∀ f, e.failure ≠ .fault f)
    (h : m.resume host turns = (.failed e, m')) :
    (Exec.runFor host turns) m = .error (.failed e) m' := by
  refine settle_failed hfault ?_
  unfold resume EStateM.run at h
  split at h <;> cases h
  assumption

/-- Between turns the machine stands before an instruction, also if it was asked to stop. -/
theorem During.placed (hm : m.Placed V) (hhost : V.Hosts host) (hd : During host m m') :
    m'.Placed V := by
  induction hd with
  | start => exact hm
  | turn _ taken ih => exact (ih.step hhost).of_run taken
  | asked _ ih =>
    obtain ⟨p, f, below, w, hat, hplace⟩ := ih
    exact ⟨p, f, below, w, hat.keep { hat.sound with } hat.vetted (.refl _) rfl rfl rfl, hplace⟩

/-- How a run of the function `r` failed: at its beginning, or in a turn that had no effect. -/
inductive FailedAt (host : Host) (file : String) (r : Ref) (m : Machine) (e : RuntimeError)
    (m' : Machine) : Prop
  /-- No instruction was reached. Variables in use have their values. -/
  | unbegun (begun : m.begin file r = (.error e, m')) (out : m'.out = m.out)
      (globals : ∀ name, m'.global? name = m.global? name)
      (captured : ∀ {x}, m.heap.Reach m.roots.refs x → m'.captured? x = m.captured? x)
  | turn {m₁ before : Machine} (begun : m.begin file r = (.ok (), m₁)) (during : During host m₁ before)
      (failed : (Exec.step host) before = .error (.failed e) m') (unharmed : before.Unharmed m')
      (globals : ∀ name, m'.global? name = before.global? name)

/-- The closure of the function is made, which may collect; then the call is refused. -/
theorem Ready.start_failed (hm : m.Ready V) (hc : m.Clean) (hl : m.heap.Live r)
    (hlaid : m.heap.LaidOut p r) (hgood : V.good p) (hbare : V.strict → p.upvalueCount = 0) :
    Exec.Fails (fun _ m' => m'.out = m.out ∧ (∀ {k v}, m'.globals.Holds k v ↔ m.globals.Holds k v) ∧
      ∀ {x}, m.heap.Reach m.roots.refs x → m'.captured? x = m.captured? x) (Exec.start r) m := by
  have hnone : ∀ x, m.heap.openSlot? x = none := by
    intro x
    have hx := hc.tethered.mem_iff x
    rw [hc.opens_eq] at hx
    simpa using hx
  unfold Exec.start
  refine .bind_ok (x := modify _) rfl
    (.bind_ok (x := Exec.push _) rfl (.bind .sober fun c m1 hmade => ?_))
  obtain ⟨hrest, -, -, -, ha⟩ := (hm.newClosure hl hlaid hgood hbare).of_run hmade
  have hsame : Keeps { m with interrupted := false, stack := m.stack.push (.object r) } m1 := by
    have hcalm := (inferInstance : Exec.Calm (Exec.newClosure r)).run
      { m with interrupted := false, stack := m.stack.push (.object r) }
    unfold Exec.Holds at hcalm
    rw [hmade] at hcalm
    exact hcalm.toKeeps
  have hclosed : ∀ x, m1.heap.openSlot? x = none := fun x => (hsame.opened x).trans (hnone x)
  have hpushed : Tethered { m with interrupted := false, stack := m.stack.push (.object r) } :=
    ⟨hc.tethered.mem_iff, hc.tethered.nodup⟩
  refine .pop_bind (Exec.Look.refl (C := Exec.still) m1).untouched fun m2 hm2 =>
    .bind_ok (x := Exec.push _) rfl ?_
  have hm3 : m1.Untouched { m2 with stack := m2.stack.push (.object c) } :=
    { hm2 with slots := fun hi => by rw [hclosed] at hi; cases hi }
  intro e m' hfailed
  have hfails : Exec.Fails (Exec.Harmless #[] m1) (Exec.enterCall c (some r) 0) _ :=
    Exec.Forgoes.run (hpushed.keeps hsame) hm3
  have hunharmed := hfails e m' hfailed fun _ _ => by
    intro _ _ _ _ _ _ hmem
    simp at hmem
  refine ⟨hunharmed.out_eq.trans (by rw [hrest]), fun {k v} => ?_, fun {x} hx => ?_⟩
  · rw [hunharmed.holds_iff, hrest]
  · have hlive : m.heap.Live x := hm.sound.heap.live_of_reach (fun _ h => hm.sound.roots h) hx
    have hlive' : m1.heap.Live x := ha.kept (hx.mono fun y hy => by
      simp only [mem_refs, Stack.toList_push hm.sound.depth_le] at hy ⊢
      grind)
    exact (hunharmed.captured_eq x).trans (captured?_of_closed (hnone x) (ha.object_eq hlive hlive'))

/-- Whenever a run of the function `r` fails, faults apart, it is without effect: whether it was
taken up again in the middle or not, and whether it was asked to stop. A native that refuses its
arguments has to be scrupulous for that. -/
def FailsSafely (host : Host) (file : String) (r : Ref) (m : Machine) : Prop :=
  ∀ turns e m', (∀ f, e.failure ≠ .fault f) →
    (∀ message, e.failure = .native message → Scrupulous host) →
    (m.runFunction host turns file r = (.failed e, m') → m.FailedAt host file r e m') ∧
    ∀ {m₁ mid}, m.begin file r = (.ok (), m₁) → During host m₁ mid → mid.resume host turns =
    (.failed e, m') →
      m.FailedAt host file r e m'

/-- **Runs of a vetted function** fail without effect. -/
theorem Ready.failsSafely [SparesHost host] (hm : m.Ready V) (hc : m.Clean) (hhost : V.Hosts host)
    (hl : m.heap.Live r)
    (hlaid : m.heap.LaidOut p r) (hgood : V.good p) (hbare : V.strict → p.upvalueCount = 0)
    (file : String) : m.FailsSafely host file r := by
  intro turns e m' hfault hnative
  have hplaced := hm.settled_begin file hl hlaid hgood hbare
  have hresumed : ∀ {m1 mid : Machine}, m.begin file r = (.ok (), m1) → During host m1 mid →
      mid.resume host turns = (.failed e, m') → m.FailedAt host file r e m' := by
    intro m1 mid hbegin hd hresume
    rw [hbegin] at hplaced
    have hready := (hd.placed hplaced hhost).leaves_resume hhost turns
    rw [hresume] at hready
    obtain ⟨before, hd', hfailed⟩ := runFor_failed turns (resume_failed hfault hresume)
    have hd := hd.trans hd'
    obtain ⟨hteth, hground⟩ := begin_ok hc.tethered hc.stack_eq hc.frames_eq hbegin
    obtain ⟨_, _, _, _, hat, -⟩ := hd.placed hplaced hhost
    have hunharmed := Exec.step_fails (hd.tethered hteth hground).1 hat.sound e m' hfailed hnative
    exact .turn hbegin hd hfailed hunharmed (global?_eq hat.sound hready.1.sound hunharmed.holds_iff)
  refine ⟨fun hrun => ?_, hresumed⟩
  have hready := hm.leaves_runFunction hhost turns file hl hlaid hgood hbare
  rw [hrun] at hready
  unfold runFunction at hrun
  cases hbegin : m.begin file r with
  | mk a m1 =>
    rw [hbegin] at hrun
    cases a with
    | ok _ => exact hresumed hbegin .start hrun
    | error e1 =>
      cases hrun
      have hm' : Ready V { m with file } := { hm with sound := { hm.sound with } }
      have hc' : Clean { m with file } := hc.opened hc.stack_eq rfl rfl fun _ => rfl
      obtain ⟨hout, hholds, hcaptured⟩ :=
        hm'.start_failed hc' hl hlaid hgood hbare e m' (settle_failed hfault hbegin)
      exact .unbegun hbegin hout (global?_eq hm.sound hready.1.sound hholds) hcaptured

theorem InUse.clean [SparesHost host] (hm : m.InUse host) : m.Clean := by
  have hran : ∀ {m : Machine} {turns file r}, m.Clean →
    (m.runFunction host turns file r).1 ≠ .unfinished →
      (m.runFunction host turns file r).2.Clean := fun hm hover =>
    (runFunction_clean hm.tethered hm.stack_eq hm.frames_eq _ rfl hover).1
  induction hm with
  | new settings => exact clean_new settings
  | native _ _ bound ih => exact ih.defineNative bound
  | compiled _ ih => exact ih.compile _ _
  | @run m turns file source _ ended ih =>
    have hcompiled := ih.compile file source
    unfold Machine.run at ended ⊢
    generalize m.compile file source = compiled at ended hcompiled ⊢
    obtain ⟨a, m1⟩ := compiled
    cases a with
    | error ds => exact hcompiled
    | ok r => exact hran hcompiled ended
  | loaded _ ih => exact ih.load _
  | @image m turns file bytes _ ended ih =>
    unfold runImage at ended ⊢
    cases hread : Image.read bytes with
    | error fault =>
      cases hbegun : fault.begun with
      | none => simpa [hbegun] using ih
      | some p => simpa [hbegun] using ih.load p
    | ok p =>
      rw [hread] at ended
      exact hran (ih.load p) fun h => ended (congrArg Except.ok h)

/-- **Failures are harmless.** A run of a compiled source, or of an image, that fails does so in a
turn that leaves the printed text, every global and the value of every captured variable as they
were before it: what an instruction does before it fails is undone, or cannot be told. If the script
could not even begin, so it is with the machine before the run. -/
theorem failures_harmless [SparesHost host] (hm : m.InUse host) (file : String) :
    (∀ {source r m₁}, m.compile file source = (.ok r, m₁) → m₁.FailsSafely host file r) ∧
    ∀ {bytes p}, Image.read bytes = .ok p → (m.load p).2.FailsSafely host file (m.load p).1 := by
  have hready := hm.ready
  have hhost := Vetting.hosts_accepted host
  refine ⟨fun {source r m₁} hcompile => ?_, fun {bytes p} hread => ?_⟩
  · obtain ⟨p, hp⟩ := compile_eq_ok (congrArg Prod.fst hcompile)
    obtain ⟨r', hr', hl, hlaid⟩ := hready.sound.compile_ok hp
    have hcompiled := hready.compile file source
    have hc := hm.clean.compile file source
    rw [hcompile] at hr' hl hlaid hcompiled hc
    cases hr'
    exact Ready.failsSafely hcompiled hc hhost hl hlaid (compileTokens_spec hp).1.verify
      False.elim file
  · obtain ⟨hloaded, hl, hlaid⟩ := hready.load (p.admitted_accepted host)
    exact hloaded.failsSafely (hm.clean.load p) hhost hl hlaid (Image.verify_of_read hread)
      False.elim file

end Machine

/-- A captured variable is open when a name that is not defined is assigned to. -/
def strandedSource : String :=
  "fonction f() \x7b var x = vrai; fonction g() \x7b afficher x; \x7d g(); y = nul; \x7d f();"

/-- It prints, and fails at the assignment. -/
def failsStranded : Except Diagnostics Ref × Machine → Bool
  | (.ok r, m₁) =>
    match m₁.runFunction Native.builtinLibrary.host 40 "essai" r with
    | (.failed e, m') => decide (e.failure = .undefinedVariable "y") && m'.out == "vrai\n"
    | _ => false
  | _ => false

theorem failures_harmless_stranded : ∃ (e : RuntimeError) (r : Ref) (m₁ m' : Machine),
    (Machine.new {}).compile "essai" strandedSource = (.ok r, m₁) ∧
      e.failure = .undefinedVariable "y" ∧
    m'.out = "vrai\n" ∧ m₁.FailedAt Native.builtinLibrary.host "essai" r e m' := by
  have hends : failsStranded ((Machine.new {}).compile "essai" strandedSource) = true := by
    decide +kernel
  cases hcompile : (Machine.new {}).compile "essai" strandedSource with
  | mk a m₁ =>
    rw [hcompile] at hends
    cases a with
    | error ds => cases hends
    | ok r =>
      have hsafely :=
        (Machine.failures_harmless (.new {} : Machine.InUse Native.builtinLibrary.host _) "essai").1
        hcompile
      rw [failsStranded] at hends
      split at hends
      · rename_i e m' hrun
        obtain ⟨hfailure, hout⟩ := (Bool.and_eq_true ..).mp hends
        have hfailure := of_decide_eq_true hfailure
        exact ⟨e, r, m₁, m', rfl, hfailure, by simpa using hout,
          (hsafely 40 e m' (by simp [hfailure]) fun _ _ => Native.scrupulous_builtins).1 hrun⟩
      · cases hends

end Parlance
