/-
  What machines ask of their heaps.
-/
import Parlance.Proofs.Heap.Sizes
import Parlance.Proofs.Machine.Laws
import Parlance.Proofs.Machine.Moments
import Parlance.Proofs.Parallel.Bond
import Parlance.Proofs.Table.FiniteMap

namespace Parlance

-- no statement about runs looks into compilations or collections
attribute [local irreducible] compileTokens Heap.collect

/-- The slot that a variable stands for while it is open. -/
def Object.openSlot? : Object → Option Nat
  | .upvalue u => if u.isOpen then some u.slot else none
  | _ => none

namespace Exec

variable {r : Ref} {α β : Type} {m : Machine} {x : Exec α} {g : α → Exec β}

/-! ## Moves on the heap -/

/-- The machine that a computation leaves, however it ends. -/
def after (x : Exec α) (m : Machine) : Machine :=
  match x m with
  | .ok _ m' => m'
  | .error _ m' => m'

/-- From `m` on, the computation acts on the heap by moves. -/
def MovesFrom (x : Exec α) (m : Machine) : Prop :=
  Relation.ReflTransGen Heap.Move m.heap (x.after m).heap

/-- The computation acts on the heap by moves, from any machine on. -/
class Moves (x : Exec α) : Prop where
  run : ∀ m, x.MovesFrom m

/-- Acting on the heap by moves is a custom. -/
def moving : Custom := ⟨fun m m' => Relation.ReflTransGen Heap.Move m.heap m'.heap, fun _ => True⟩

theorem obeysFrom_moving : x.ObeysFrom moving m ↔ x.MovesFrom m := by
  unfold ObeysFrom MovesFrom after
  cases x m with
  | ok a m' => exact Iff.rfl
  | error e m' => exact iff_of_eq (true_and _)

theorem Obeys.moves (hx : Obeys moving x) : Moves x := ⟨fun m => obeysFrom_moving.1 (hx.run m)⟩

theorem Moves.obeys (hx : Moves x) : Obeys moving x := ⟨fun m => obeysFrom_moving.2 (hx.run m)⟩

/-- The custom allows for all that acts on the heap by moves. Failures are another matter. -/
class Work (C : Custom) : Prop where
  moves : ∀ {m m'}, moving.leads m m' → C.leads m m'
  trans : ∀ {m m' m''}, C.leads m m' → C.leads m' m'' → C.leads m m''
  fault : C.halts (.fault .machine)

section

variable {C : Custom} [work : Work C] {a : α} {m' : Machine}

theorem ObeysFrom.of_heap (hx : x m = .ok a m') (heq : m'.heap = m.heap) : x.ObeysFrom C m := by
  unfold ObeysFrom
  rw [hx]
  refine work.moves (show Relation.ReflTransGen _ _ _ from ?_)
  rw [heq]

theorem ObeysFrom.single (hx : x m = .ok a m') (hmove : m.heap.Move m'.heap) : x.ObeysFrom C m := by
  unfold ObeysFrom
  rw [hx]
  exact work.moves (.single hmove)

theorem Obeys.of_heap (h : ∀ m, ∃ a m', x m = .ok a m' ∧ m'.heap = m.heap) : Obeys C x := by
  refine ⟨fun m => ?_⟩
  obtain ⟨a, m', hx, heq⟩ := h m
  exact .of_heap hx heq

theorem Obeys.allocate {o : Object} (hnot : ∀ s x, o ≠ .text s x) : Obeys C (allocate o) :=
  ⟨fun m => .single rfl (.allocate m.roots hnot)⟩

instance (priority := low) law_of_work : Law C where
  refl _ := work.moves .refl
  trans := work.trans
  fault := work.fault
  jumpTo _ := .of_heap fun _ => ⟨_, _, rfl, rfl⟩
  intern s := ⟨fun m => .single rfl (.intern m.roots s)⟩
  note message := ⟨fun _ => .single rfl (.note message)⟩
  allocate hnot _ := .allocate hnot
  readClock := .of_heap fun _ => ⟨_, _, rfl, rfl⟩
  drawNumber := .of_heap fun _ => ⟨_, _, rfl, rfl⟩

/-- The custom allows for what turns are made of: changes beside the heap and the list of open
variables, new contents of objects that open no variable and close none, and closing and capturing
variables. -/
class Toil (C : Custom) : Prop extends Law C where
  aside : ∀ {m m'}, m'.heap = m.heap → m'.openUpvalues = m.openUpvalues → C.leads m m'
  change : ∀ {m r old o}, m.heap.object? r = some old → (∀ s x, old ≠ .text s x) →
    (∀ s x, o ≠ .text s x) →
    o.size = old.size → o.openSlot? = old.openSlot? → C.leads m { m with heap := m.heap.setObject r o }
  closeFrom : ∀ last, Obeys C (closeFrom last)
  capture : ∀ slot, Obeys C (capture slot)

attribute [instance] Toil.closeFrom Toil.capture

theorem need_ok {o : Option α} (hneed : need o m = .ok a m') : m' = m := by
  cases o <;> cases hneed
  rfl

theorem need_eq_some {o : Option α} (hneed : need o m = .ok a m') : o = some a := by
  cases o <;> cases hneed
  rfl

theorem mem_host_of_need {n : Native} {host : Host} {routine : Routine}
    (hneed : need (n.code.bind (host[·]?)) m = .ok routine m') : routine ∈ host := by
  obtain ⟨code, -, hcode⟩ := Option.bind_eq_some_iff.1 (need_eq_some hneed)
  exact Array.mem_of_getElem? hcode

theorem upvalue_ok {u : Upvalue} (hu : upvalue r m = .ok u m') :
    m' = m ∧ m.heap.object? r = some (.upvalue u) := by
  have hdef : upvalue r m = (need (m.heap.object? r) >>= fun o => match o with
    | .upvalue u => pure u
    | _ => fault : Exec Upvalue) m := rfl
  rw [hdef] at hu
  cases ho : m.heap.object? r with
  | none =>
    rw [ho] at hu
    cases hu
  | some o =>
    rw [ho] at hu
    cases o <;> cases hu
    exact ⟨rfl, rfl⟩

theorem movesFrom_setUpvalue {u : Upvalue} (hu : m.heap.object? r = some (.upvalue u)) (u' : Upvalue) :
    (setObject r (.upvalue u')).ObeysFrom C m :=
  .single rfl (.change hu (by simp) (by simp) rfl)

theorem obeys_closeList (last : Nat) (us : List Ref) : Obeys C (closeList last us) := by
  induction us with
  | nil =>
    unfold closeList
    infer_instance
  | cons r rest ih =>
    have hrest : Obeys C (modify fun m : Machine => { m with openUpvalues := rest } : Exec Unit) :=
      .of_heap fun _ => ⟨_, _, rfl, rfl⟩
    unfold closeList
    refine ⟨fun m => ObeysFrom.bind (Obeys.run m) fun u m' hu => ?_⟩
    obtain ⟨rfl, hobj⟩ := upvalue_ok hu
    split
    · refine ObeysFrom.bind (Obeys.run _) fun m1 m2 hget => ?_
      cases hget
      refine ObeysFrom.bind (Obeys.run _) fun v m2 hv => ?_
      obtain rfl := need_ok hv
      exact (movesFrom_setUpvalue hobj _).bind fun _ m3 _ => Obeys.run m3
    · exact Obeys.run _

theorem obeys_capture (slot : Nat) : Obeys C (capture slot) := by
  have hallocate : Obeys C (allocate (.upvalue { isOpen := true, slot, closed := .nul })) :=
    .allocate (by simp)
  have hopens : ∀ l : Ref → List Ref, ∀ r,
    Obeys C (modify fun m : Machine => { m with openUpvalues := l r } : Exec Unit) :=
    fun l r => .of_heap fun _ => ⟨_, _, rfl, rfl⟩
  unfold capture
  refine ⟨fun m => .bind (Obeys.run m) fun _ m1 _ => .bind (Obeys.run m1) fun p m2 _ => ?_⟩
  obtain ⟨above, others⟩ := p
  have := hopens fun r => above ++ r :: others
  dsimp only
  split
  · refine .bind (Obeys.run m2) fun _ m3 _ => .bind (Obeys.run m3) fun known m4 _ => ?_
    split <;> exact Obeys.run m4
  · refine .bind (Obeys.run m2) fun known m3 _ => ?_
    split <;> exact Obeys.run m3

instance (priority := low) toil_of_work : Toil C where
  aside hheap _ := work.moves (show Relation.ReflTransGen _ _ _ by rw [hheap])
  change ho hold hnew hsize _ := work.moves (.single (.change ho hold hnew hsize))
  closeFrom last := have := obeys_closeList (C := C) last; by unfold Exec.closeFrom; infer_instance
  capture := obeys_capture

end

/-! ## The machine's own computations -/

section

variable {C : Custom} [toil : Toil C] {a : α} {m' : Machine}

theorem ObeysFrom.aside (hx : x m = .ok a m') (hheap : m'.heap = m.heap)
    (hopens : m'.openUpvalues = m.openUpvalues) : x.ObeysFrom C m := by
  unfold ObeysFrom
  rw [hx]
  exact toil.aside hheap hopens

theorem ObeysFrom.change {old o : Object} (ho : m.heap.object? r = some old)
    (hold : ∀ s x, old ≠ .text s x)
    (hnew : ∀ s x, o ≠ .text s x) (hsize : o.size = old.size) (hslot : o.openSlot? = old.openSlot?) :
    (setObject r o).ObeysFrom C m := toil.change ho hold hnew hsize hslot

theorem Obeys.aside (h : ∀ m, ∃ a m', x m = .ok a m' ∧ m'.heap = m.heap ∧
      m'.openUpvalues = m.openUpvalues) : Obeys C x := by
  refine ⟨fun m => ?_⟩
  obtain ⟨a, m', hx, hheap, hopens⟩ := h m
  exact .aside hx hheap hopens

instance obeys_push (v : Value) : Obeys C (push v) := .aside fun _ => ⟨_, _, rfl, rfl, rfl⟩

instance obeys_pop : Obeys C pop := by
  refine .get_bind fun m => ?_
  split
  · exact .bind (.aside rfl rfl rfl) fun _ m' _ => Obeys.run m'
  · exact Obeys.run m

instance obeys_setSlot (i : Nat) (v : Value) : Obeys C (setSlot i v) := by
  have : Obeys C (modify fun m : Machine => { m with stack := m.stack.put i v } : Exec Unit) :=
    .aside fun _ => ⟨_, _, rfl, rfl, rfl⟩
  unfold setSlot
  infer_instance

instance obeys_cutTo (depth : Nat) : Obeys C (cutTo depth) := .aside fun _ => ⟨_, _, rfl, rfl, rfl⟩

instance obeys_writeUpvalue (r : Ref) (v : Value) : Obeys C (writeUpvalue r v) := by
  refine ⟨fun m => ObeysFrom.bind (Obeys.run m) fun u m' hu => ?_⟩
  obtain ⟨rfl, hobj⟩ := upvalue_ok hu
  cases hopen : u.isOpen with
  | true => exact Obeys.run (x := setSlot u.slot v) m'
  | false => exact .change hobj nofun nofun rfl (by simp [Object.openSlot?, hopen])

instance obeys_resetStack : Obeys C resetStack := by
  have : Obeys C
    (modify fun m : Machine => { m with stack := m.stack.cutTo 0, frames := #[] } : Exec Unit) :=
    .aside fun _ => ⟨_, _, rfl, rfl, rfl⟩
  unfold resetStack
  infer_instance

instance obeys_performPrint (n : Nat) : Obeys C (performPrint n) := by
  have hprint : ∀ line : String, Obeys C (modify fun m : Machine =>
      { m with out := m.out ++ line ++ "\n", stack := m.stack.cutTo (m.stack.depth - n) } :
        Exec Unit) :=
    fun line => .aside fun _ => ⟨_, _, rfl, rfl, rfl⟩
  unfold performPrint
  infer_instance

instance obeys_fillUpvalues (closure : Ref) (f : Frame) (count i : Nat) :
    Obeys C (fillUpvalues closure f count i) := by
  induction count generalizing i with
  | zero =>
    unfold fillUpvalues
    infer_instance
  | succ count ih =>
    unfold fillUpvalues
    refine .bind inferInstance fun kind => .bind inferInstance fun index => ?_
    dsimp only
    split
    on_goal 1 => refine .bind inferInstance fun r => ?_
    all_goals
      refine .bind inferInstance fun captured => ⟨fun m => .bind (Obeys.run m) fun o m' hobject => ?_⟩
      have hm' : m' = m := need_ok hobject
      subst hm'
      have ho : m'.heap.object? closure = some o := need_eq_some hobject
      split
      -- the closure keeps its size
      · exact .bind (.change ho nofun nofun (by simp [Object.size]) rfl) fun _ m'' _ => Obeys.run m''
      · exact Obeys.run m'

instance obeys_performClosure : Obeys C performClosure := by
  refine .bind inferInstance fun v => ?_
  dsimp only
  split
  all_goals
    refine .bind inferInstance fun r => .bind inferInstance fun closure => .bind inferInstance fun _ =>
      .bind inferInstance fun f => .bind inferInstance fun o => ?_
    split <;> infer_instance

instance obeys_performReturn : Obeys C performReturn := by
  unfold performReturn
  refine .bind inferInstance fun result => .bind inferInstance fun f => .bind inferInstance fun _ =>
    .bind (.aside fun _ => ⟨_, _, rfl, rfl, rfl⟩) fun _ => .bind inferInstance fun m => ?_
  split <;> infer_instance

end

/-! ## Failures and calls -/

/-- The custom allows for failures. -/
class Lenient (C : Custom) : Prop where
  failed : ∀ e, C.halts (.failed e)

/-- The routines of the host keep to the custom. -/
class ObeysHost (C : Custom) (host : Host) : Prop where
  routine : ∀ r ∈ host, ∀ name vs, Obeys C (r name vs)

theorem raise_ne_ok {failure : Failure} {a : α} {m' : Machine} :
    (raise failure : Exec α) m ≠ .ok a m' := by
  intro h
  obtain ⟨_, _, -, h⟩ := exists_of_run_bind h
  obtain ⟨_, _, -, h⟩ := exists_of_run_bind h
  obtain ⟨_, _, -, h⟩ := exists_of_run_bind h
  cases h

variable {C : Custom} [toil : Toil C] [lenient : Lenient C]

instance obeys_raise (failure : Failure) : Obeys C (raise failure : Exec α) := by
  have (e : RuntimeError) : Obeys C (throw (.failed e) : Exec α) :=
    ⟨fun m => ⟨lenient.failed e, toil.refl m⟩⟩
  unfold raise
  infer_instance

theorem obeysFrom_raise_bind (failure : Failure) (m : Machine) : (raise failure >>= g).ObeysFrom C m :=
  .bind (Obeys.run m) fun _ _ h => (raise_ne_ok h).elim

instance obeys_enterCall (closure : Ref) (function : Option Ref) (argc : Nat) :
    Obeys C (enterCall closure function argc) := by
  unfold enterCall
  refine .bind inferInstance fun _ => .bind inferInstance fun f => ?_
  dsimp only
  split
  · exact ⟨fun m => .bind (Obeys.run m) fun _ m' _ => obeysFrom_raise_bind _ m'⟩
  · refine .get_bind fun m => ?_
    split
    · exact obeysFrom_raise_bind _ m
    · exact .aside rfl rfl rfl

variable (host : Host) [hhost : ObeysHost C host]

instance obeys_callNative (n : Native) (argc : Nat) : Obeys C (callNative host n argc) := by
  unfold callNative
  dsimp only
  split
  · exact ⟨obeysFrom_raise_bind _⟩
  · refine .bind inferInstance fun vs => .bind inferInstance fun _ =>
      ⟨fun m => .bind (Obeys.run m) fun routine m' hneed => ?_⟩
    have hmem := mem_host_of_need hneed
    refine .bind ((hhost.routine routine hmem _ _).run m') fun a m'' _ => ?_
    cases a <;> exact Obeys.run m''

instance obeys_callValue (callee : Value) (argc : Nat) : Obeys C (callValue host callee argc) := by
  unfold callValue
  split
  · refine .bind inferInstance fun o => ?_
    split <;> infer_instance
  · infer_instance

instance obeys_performArithmetic (op : Op) : Obeys C (performArithmetic op) := by
  unfold performArithmetic
  refine .bind inferInstance fun top => .bind ?_ fun second => ?_
  · split <;> infer_instance
  · split
    · refine .bind inferInstance fun _ => .bind inferInstance fun _ => ?_
      split <;> infer_instance
    · infer_instance

instance obeys_performAdd : Obeys C performAdd := by
  unfold performAdd
  refine .bind inferInstance fun b => .bind inferInstance fun a => ?_
  split
  · infer_instance
  · refine .bind inferInstance fun s? => .bind inferInstance fun t? => ?_
    split <;> infer_instance

instance obeys_performSetGlobal : Obeys C performSetGlobal := by
  unfold performSetGlobal
  refine .bind inferInstance fun v => .bind inferInstance fun key => .bind inferInstance fun v =>
    .get_bind fun m => ?_
  cases m.globals.set key v with
  | mk isNew globals =>
    dsimp only
    split
    · exact .bind (.aside rfl rfl rfl) fun _ m' _ => Obeys.run m'
    · exact .aside rfl rfl rfl

set_option synthInstance.maxSize 256 in
instance obeys_perform (op : Op) : Obeys C (perform host op) := by
  unfold perform
  dsimp only
  cases op with
  | getGlobal =>
    refine .bind inferInstance fun v => .bind inferInstance fun key => .bind inferInstance fun m => ?_
    split <;> infer_instance
  | defineGlobal =>
    exact .bind inferInstance fun _ => .bind inferInstance fun key => .bind inferInstance fun v =>
      .bind (.aside fun _ => ⟨_, _, rfl, rfl, rfl⟩) fun _ => inferInstance
  | negate =>
    refine .bind inferInstance fun v => ?_
    split <;> infer_instance
  | _ => dsimp only; infer_instance

instance obeys_step : Obeys C (step host) := by
  refine .bind inferInstance fun m => ?_
  dsimp only
  split
  · exact .bind (.aside fun _ => ⟨_, _, rfl, rfl, rfl⟩) fun _ => ⟨obeysFrom_raise_bind _⟩
  · refine .bind inferInstance fun m => ?_
    split
    · refine .bind inferInstance fun _ => .bind inferInstance fun byte => ?_
      split <;> infer_instance
    · refine .bind inferInstance fun byte => ?_
      split <;> infer_instance

instance obeys_runFor (turns : Nat) : Obeys C (runFor host turns) := by
  induction turns with
  | zero =>
    unfold runFor
    infer_instance
  | succ turns ih =>
    unfold runFor
    refine .bind inferInstance fun p => ?_
    split <;> infer_instance

instance obeys_start (r : Ref) : Obeys C (start r) := by
  unfold start
  exact .bind (.aside fun _ => ⟨_, _, rfl, rfl, rfl⟩) fun _ => inferInstance

instance obeys_defineNative (name : String) (arity : Int) (code : Nat) :
    Obeys C (defineNative name arity code) := by
  unfold defineNative
  exact .bind inferInstance fun key => .bind inferInstance fun _ => .bind inferInstance fun r =>
    .bind inferInstance fun _ => .bind (.aside fun _ => ⟨_, _, rfl, rfl, rfl⟩) fun _ => inferInstance

instance work_moving : Work moving := ⟨id, .trans, trivial⟩

instance lenient_moving : Lenient moving := ⟨fun _ => trivial⟩

/-- The routines act on the heap by moves. -/
class MovesHost (host : Host) : Prop where
  routine : ∀ r ∈ host, ∀ name vs, Moves (r name vs)

instance obeysHost_moving [hhost : MovesHost host] : ObeysHost moving host :=
  ⟨fun r hr name vs => (hhost.routine r hr name vs).obeys⟩

end Exec

instance movesHost_builtins : Exec.MovesHost Native.builtinLibrary.host where
  routine _ hr name vs := (Native.obeys_of_mem_host hr name vs : Exec.Obeys Exec.moving _).moves

/-! ## Machines -/

namespace Machine

variable {m m' : Machine} {host : Host}

theorem moves_abandon (m : Machine) : Relation.ReflTransGen Heap.Move m.heap m.abandon.heap := by
  have hfold : ∀ (us : List Ref) (h : Heap), Relation.ReflTransGen Heap.Move h
      (us.foldl (abandonUpvalue m.stack) h) := by
    intro us
    induction us with
    | nil => exact fun _ => .refl
    | cons r us ih =>
      intro h
      refine .trans ?_ (ih _)
      unfold abandonUpvalue
      split
      · rename_i hu
        exact .single (.change hu (by simp) (by simp) rfl)
      · exact .refl
  exact hfold m.openUpvalues m.heap

theorem moves_settle {α : Type} (x : Exec α) [hx : x.Obeys Exec.moving] (m : Machine) :
    Relation.ReflTransGen Heap.Move m.heap (settle (x.run m)).2.heap := by
  have hrun := hx.moves.run m
  unfold Exec.MovesFrom Exec.after at hrun
  have heq : x.run m = x m := rfl
  rw [heq]
  cases hxm : x m with
  | ok a m' =>
    rw [hxm] at hrun
    exact hrun
  | error e m' =>
    rw [hxm] at hrun
    cases e with
    | failed e => exact hrun
    | fault f => exact hrun.trans m'.moves_abandon

/-- The machines that are in use: natives and globals are bound, sources are compiled, functions
laid out, run for so many turns and perhaps interrupted, whatever comes of it, and at times all
objects are given up. -/
inductive Lived (host : Host) : Machine → Prop
  | new (settings : Settings) : Lived host (new settings)
  | native {m : Machine} (before : Lived host m) (name : String) (arity : Int) (code : Nat) :
      Lived host ((Exec.defineNative name arity code).after m)
  | global {m : Machine} (before : Lived host m) (name : String) (v : Value) :
      Lived host (m.setGlobal name v)
  | compiled {m : Machine} (before : Lived host m) (file source : String) :
      Lived host (m.compile file source).2
  | loaded {m : Machine} (before : Lived host m) (p : Proto) : Lived host (m.load p).2
  | begun {m : Machine} (before : Lived host m) (file : String) (r : Ref) :
      Lived host (m.begin file r).2
  | resumed {m : Machine} (before : Lived host m) (turns : Nat) : Lived host (m.resume host turns).2
  /-- The host changes what is not on the heap. -/
  | altered {m m' : Machine} (before : Lived host m) (same : m'.heap = m.heap) : Lived host m'
  | freed {m : Machine} (before : Lived host m) : Lived host m.free

theorem resume_heap (m : Machine) (host : Host) (turns : Nat) :
    (m.resume host turns).2 = (settle ((Exec.runFor host turns).run m)).2 := by
  unfold resume
  cases settle ((Exec.runFor host turns).run m) with
  | mk a m' =>
    cases a with
    | error e => rfl
    | ok b => cases b <;> rfl

theorem Lived.runFunction (hm : m.Lived host) (turns : Nat) (file : String) (r : Ref) :
    (m.runFunction host turns file r).2.Lived host := by
  have hbegun := hm.begun file r
  unfold Machine.runFunction
  generalize m.begin file r = begun at hbegun
  obtain ⟨a, m'⟩ := begun
  cases a with
  | error e => exact hbegun
  | ok _ => exact hbegun.resumed turns

theorem Lived.run (hm : m.Lived host) (turns : Nat) (file source : String) :
    (m.run host turns file source).2.Lived host := by
  have hcompiled := hm.compiled file source
  unfold Machine.run
  generalize m.compile file source = compiled at hcompiled
  obtain ⟨a, m'⟩ := compiled
  cases a with
  | error ds => exact hcompiled
  | ok r => exact hcompiled.runFunction turns file r

/-- **Heaps of machines are reached by steps, and every registered object is charged with its
size.** -/
theorem Lived.settled [Exec.MovesHost host] (hm : m.Lived host) : m.heap.Settled [] := by
  induction hm with
  | new settings => exact Heap.settled_new settings.heap
  | native _ name arity code ih => exact ih.moves ((Exec.Obeys.moves inferInstance).run _)
  | global _ name v ih => exact ih.intern (by simp) name
  | @compiled m _ file source ih =>
    have hbuilt :=
      ih.buildAll m.roots m.settings.printCode (admitted_builds (F := fun _ => True) file source)
      (compileTokens_balanced (tokens file source))
    rw [compile_snd]
    exact hbuilt
  | loaded _ p ih => exact ih.layOut _ p
  | @begun m _ file r ih =>
    have hmoves := moves_settle (Exec.start r) { m with file }
    exact ih.moves hmoves
  | @resumed m _ turns ih =>
    rw [resume_heap]
    exact ih.moves (moves_settle (Exec.runFor host turns) m)
  | altered _ same ih => exact same ▸ ih
  | @freed m _ ih => exact (ih.moves (moves_settle Exec.resetStack m)).freeAll

end Machine

/-! ## Strings and the registry -/

namespace Heap

variable {h : Heap}

theorem Interned.mem_strings_iff (hi : h.Interned) {k : Symbol} :
    k ∈ h.strings.entriesList.map Prod.fst ↔
    h.Live k.ref ∧ h.object? k.ref = some (.text k.text k.hash) := by
  rw [← hi.holds_iff (u := ()), List.mem_map]
  constructor
  · rintro ⟨⟨k, u⟩, hmem, rfl⟩
    exact Table.mem_entriesList.1 hmem
  · exact fun hk => ⟨(k, ()), Table.mem_entriesList.2 hk, rfl⟩

theorem Interned.nodup_texts (hi : h.Interned) : (h.strings.entriesList.map (·.1.text)).Nodup := by
  have hkeys := Table.nodup_entriesList hi.valid
  have htexts : h.strings.entriesList.map (·.1.text) = (h.strings.entriesList.map Prod.fst).map
      Symbol.text := by
    rw [List.map_map]
    rfl
  rw [htexts]
  refine hkeys.map_on fun k hk k' hk' heq => ?_
  obtain ⟨hl, ho⟩ := hi.mem_strings_iff.1 hk
  obtain ⟨hl', ho'⟩ := hi.mem_strings_iff.1 hk'
  have href : k.ref = k'.ref := hi.unique hl hl' ho (heq ▸ ho')
  have hhash : k.hash = k'.hash := by rw [hi.hash_eq hl ho, hi.hash_eq hl' ho', heq]
  obtain ⟨r, s, x⟩ := k
  obtain ⟨r', s', x'⟩ := k'
  simp_all

theorem exists_text_of_chars? {r : Ref} {s : String} (hs : h.chars? r = some s) :
    ∃ x, h.object? r = some (.text s x) := by
  unfold chars? at hs
  split at hs
  · rename_i ho
    cases hs
    exact ⟨_, ho⟩
  · cases hs

theorem Interned.same_iff (hi : h.Interned) {r r' : Ref} {s s' : String} (hl : h.Live r)
    (hl' : h.Live r') (hs : h.chars? r = some s) (hs' : h.chars? r' = some s') :
    (Value.object r).same (.object r') = true ↔ s = s' := by
  obtain ⟨x, ho⟩ := exists_text_of_chars? hs
  obtain ⟨x', ho'⟩ := exists_text_of_chars? hs'
  have hsame : (Value.object r).same (.object r') = true ↔ r = r' := by simp [Value.same]
  rw [hsame]
  constructor
  · rintro rfl
    rw [hs] at hs'
    exact Option.some.inj hs'
  · rintro rfl
    exact hi.unique hl hl' ho ho'

end Heap

/-- **Strings are interned.** Machines reach their heaps by steps, whatever they compile, load and
run. On every heap that is reached the table of strings has exactly the registered strings, no two
of one text, and each under the hash of its text. So two registered strings are the same value
exactly if they have the same text. -/
theorem strings_interned (host : Host) [Exec.MovesHost host] :
    (∀ {m : Machine}, m.Lived host → m.heap.Reached) ∧
    ∀ {h : Heap}, h.Reached → (∀ {k : Symbol}, k ∈ h.strings.entriesList.map Prod.fst ↔
        h.Live k.ref ∧ h.object? k.ref = some (.text k.text k.hash)) ∧
      (h.strings.entriesList.map (·.1.text)).Nodup ∧
      (∀ {r s x}, h.Live r → h.object? r = some (.text s x) → x = hashText s ∧
        h.strings.findText? s (hashText s) = some ⟨r, s, x⟩) ∧
      ∀ {r r' s s'}, h.Live r → h.Live r' → h.chars? r = some s → h.chars? r' = some s' →
        ((Value.object r).same (.object r') = true ↔ s = s') := by
  refine ⟨fun hm => hm.settled.reached, fun {h} hreached => ?_⟩
  have hi := hreached.orderly.toInterned
  refine ⟨hi.mem_strings_iff, hi.nodup_texts, fun hl ho => ?_, hi.same_iff⟩
  have hhash := hi.hash_eq hl ho
  exact ⟨hhash, hi.findText?_eq_some_iff.2 ⟨rfl, hl, ho⟩⟩

theorem strings_interned_names :
    ∃ (m : Machine) (r r' : Ref), m.Lived Native.builtinLibrary.host ∧ m.heap.Live r ∧
    m.heap.Live r' ∧ m.heap.chars? r = some "x" ∧ m.heap.chars? r' = some "y" ∧
    (Value.object r).same (.object r') ≠ true := by
  let m := ((Machine.new {}).setGlobal "x" .nul).setGlobal "y" .nul
  have hm : m.Lived Native.builtinLibrary.host := .global (.global (.new {}) "x" .nul) "y" .nul
  obtain ⟨hreached, hinterned⟩ := strings_interned Native.builtinLibrary.host
  have hl : m.heap.Live ⟨0⟩ := ⟨0, by decide +kernel, by decide +kernel⟩
  have hl' : m.heap.Live ⟨1⟩ := ⟨1, by decide +kernel, by decide +kernel⟩
  have hs : m.heap.chars? ⟨0⟩ = some "x" := by decide +kernel
  have hs' : m.heap.chars? ⟨1⟩ = some "y" := by decide +kernel
  exact ⟨m, ⟨0⟩, ⟨1⟩, hm, hl, hl', hs, hs', fun hsame =>
    absurd (((hinterned (hreached hm)).2.2.2 hl hl' hs hs').1 hsame) (by decide)⟩

/-- **The registry is in order.** On every heap that is reached slots and generations are equally
many, the free list has each empty slot once, each registered object knows its slot and bears no
mark, the bytes in use are those charged for the registered objects, a collection is not due before
the threshold, and the count of live objects is right. No object at all bears a mark where roots and
references are registered. The bytes in use on a machine are also those that the registered objects
take up. -/
theorem registry_ordered (host : Host) [Exec.MovesHost host] : (∀ {h : Heap}, h.Reached →
      h.generations.size = h.slots.size ∧ h.free.Nodup ∧
      (∀ {i}, i ∈ h.free ↔ h.slots[i]? = some none) ∧
      (∀ {i : Nat} {r}, h.slots[i]? = some (some r) → h.slotOf? r = some i ∧ h.isMarked r = false) ∧
      h.bytes = h.charges ∧ h.settings.threshold ≤ h.nextCollection ∧
        h.liveObjects = h.slots.countP (·.isSome)) ∧
    (∀ {h : Heap}, h.WellRooted → ∀ r, h.isMarked r = false) ∧
    ∀ {m : Machine}, m.Lived host → m.heap.bytes = m.heap.sizes := by
  refine ⟨fun {h} hreached => ?_, fun hr => hr.clear.2, fun hm => hm.settled.bytes_eq⟩
  have ho := hreached.orderly
  exact ⟨ho.generations_size, ho.free_nodup, ho.free_iff,
    fun hi => ⟨ho.slot_eq hi, ho.unmarked ⟨_, ho.slot_eq hi, hi⟩⟩, ho.bytes_eq, ho.threshold_le,
    ho.liveObjects_eq⟩

theorem registry_ordered_run :
    ∃ m : Machine, m.Lived Native.builtinLibrary.host ∧ m.heap.liveObjects = 7 ∧
    m.heap.slots.countP (·.isSome) = 7 ∧ m.heap.bytes = m.heap.sizes := by
  obtain ⟨hregistry, -, hsizes⟩ := registry_ordered Native.builtinLibrary.host
  have hm := @Machine.Lived.run _ Native.builtinLibrary.host (.new {}) 100 "" cyclicSource
  have hcount :
    ((Machine.new {}).run Native.builtinLibrary.host 100 "" cyclicSource).2.heap.slots.countP
      (·.isSome) = 7 := by decide +kernel
  obtain ⟨-, -, -, -, -, -, hlive⟩ := hregistry hm.settled.reached
  exact ⟨_, hm, hlive.trans hcount, hcount, hsizes hm⟩

end Parlance
