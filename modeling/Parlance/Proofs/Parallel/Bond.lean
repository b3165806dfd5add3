/-
  Two machines side by side.
-/
import Parlance.Proofs.Machine.Moments
import Parlance.Proofs.Parallel.Table

namespace Parlance

variable {S : Slots}

/-- The same call, up to the pairing. -/
structure Frame.Alike (β : Pairing) (f g : Frame) : Prop where
  closure : β f.closure g.closure
  ip : f.ip = g.ip
  base : f.base = g.base

/-- The same name of a global, up to the pairing. -/
structure Symbol.Alike (β : Pairing) (k l : Symbol) : Prop where
  ref : β k.ref l.ref
  text : k.text = l.text
  hash : k.hash = l.hash

variable {β β' : Pairing} {v w : Value}

theorem Frame.Alike.mono (hle : ∀ {a b}, β a b → β' a b) {f g : Frame} (h : f.Alike β g) :
    f.Alike β' g :=
  ⟨hle h.closure, h.ip, h.base⟩

theorem Symbol.Alike.mono (hle : ∀ {a b}, β a b → β' a b) {k l : Symbol} (h : k.Alike β l) :
    k.Alike β' l :=
  ⟨hle h.ref, h.text, h.hash⟩

/-- Objects that correspond and are registered. -/
structure Heap.Pair (β : Pairing) (h1 h2 : Heap) (r s : Ref) : Prop where
  paired : β r s
  left : h1.Live r
  right : h2.Live s

/-- Values that correspond and are registered. -/
structure Heap.Share (β : Pairing) (h1 h2 : Heap) (v w : Value) : Prop where
  alike : v.Alike β w
  left : h1.LiveValue v
  right : h2.LiveValue w

theorem Heap.Share.steady {h1 h2 h1' h2' : Heap} (h : Heap.Share β h1 h2 v w)
    (hle : ∀ {a b}, β a b → β' a b)
    (hl : ∀ {x}, h1.Live x → h1'.Live x) (hr : ∀ {x}, h2.Live x → h2'.Live x) :
    Heap.Share β' h1' h2' v w := by
  obtain ⟨halike, hv, hw⟩ := h
  cases halike with
  | object hab => exact ⟨.object (hle hab), hl hv, hr hw⟩
  | nul => exact ⟨.nul, trivial, trivial⟩
  | bool b => exact ⟨.bool b, trivial, trivial⟩
  | number x => exact ⟨.number x, trivial, trivial⟩

/-! ## Machines -/

/-- What a machine has for its variables. -/
structure Scene where
  heap : Heap
  stack : Stack
  opens : List Ref

def Machine.scene (m : Machine) : Scene := ⟨m.heap, m.stack, m.openUpvalues⟩

/-- How the second machine keeps its variables, and how they correspond to those on the stack of the
first. If `strict`, no captured variable may lose its slot before it is closed on the left. -/
structure Bond where
  right : Slots
  kin : Kinship
  strict : Prop
  /-- How the variables correspond. With a number, those from that slot on have been closed and are
  about to go. -/
  joins : (closed : Option Nat) → Pairing → Scene → Scene → Prop

namespace Machine

/-- The same settings, output and counters; collections apart. -/
structure Level (m1 m2 : Machine) : Prop where
  printCode : m1.settings.printCode = m2.settings.printCode
  traceExecution : m1.settings.traceExecution = m2.settings.traceExecution
  maxFrames : m1.settings.maxFrames = m2.settings.maxFrames
  interrupted : m1.interrupted = m2.interrupted
  file : m1.file = m2.file
  out : m1.out = m2.out
  reports : m1.reports = m2.reports
  clock : m1.clock = m2.clock
  seed : m1.seed = m2.seed

/-- The machines show the same. -/
structure Alike (B : Bond) (closed : Option Nat) (β : Pairing) (m1 m2 : Machine) :
    Prop extends Level m1 m2 where
  sound₁ : m1.Sound
  sound₂ : m2.Sound
  heap : m1.heap.Alike B.kin β m2.heap
  depth : m1.stack.depth = m2.stack.depth
  values : List.Forall₂ (Value.Alike β) m1.stack.toList (B.right.values m2)
  frames : List.Forall₂ (Frame.Alike β) m1.frames.toList m2.frames.toList
  globals : m1.globals.Paired (Symbol.Alike β) (Value.Alike β) m2.globals
  joined : B.joins closed β m1.scene m2.scene

/-- Objects that correspond on the machines. -/
abbrev Pairs (β : Pairing) (m1 m2 : Machine) : Ref → Ref → Prop := Heap.Pair β m1.heap m2.heap

/-- Values that correspond on the machines. -/
abbrev Shares (β : Pairing) (m1 m2 : Machine) : Value → Value → Prop := Heap.Share β m1.heap m2.heap

/-- The open variables are below a slot. -/
def Clear (limit : Nat) (m : Machine) : Prop := ∀ r ∈ m.openUpvalues, m.heap.slotAt r < limit

theorem clear_of_nil {m : Machine} {limit : Nat} (h : m.openUpvalues = []) : m.Clear limit := by
  intro x hx
  rw [h] at hx
  cases hx

end Machine

/-! ## Computations side by side -/

namespace Exec

variable {α α' γ γ' : Type} {J : Pairing → Machine → Machine → Prop} {x : Exec α} {y : Exec α'}
  {m1 m2 : Machine}

theorem run_bind_error {m : Machine} {f : α → Exec γ} {e : Halt} {m' : Machine}
    (hx : x m = .error e m') : (x >>= f) m = .error e m' := by
  show EStateM.bind x f m = _
  rw [EStateM.bind, hx]

theorem exists_of_run_bind {m m' : Machine} {f : α → Exec γ} {c : γ} (h : (x >>= f) m = .ok c m') :
    ∃ a m1, x m = .ok a m1 ∧ f a m1 = .ok c m' := by
  cases hx : x m with
  | ok a m1 => exact ⟨a, m1, rfl, (run_bind hx).symm.trans h⟩
  | error e m1 =>
    rw [run_bind_error hx] at h
    cases h

/-- Both computations come to answers that stand in `Q`, or end early in the same way, in machines
that stand in `J`. -/
def Sync (J : Pairing → Machine → Machine → Prop) (β : Pairing) (x : Exec α) (y : Exec α')
    (m1 m2 : Machine) (Q : Pairing → α → α' → Machine → Machine → Prop) : Prop :=
  match x m1, y m2 with
  | .ok a n1, .ok a' n2 => ∃ β' : Pairing, (∀ {a b}, β a b → β' a b) ∧ Q β' a a' n1 n2
  | .error e n1, .error e' n2 => e = e' ∧ ∃ β' : Pairing, (∀ {a b}, β a b → β' a b) ∧ J β' n1 n2
  | _, _ => False

namespace Sync

variable {Q Q' : Pairing → α → α' → Machine → Machine → Prop}
  {R : Pairing → γ → γ' → Machine → Machine → Prop}
  {a : α} {a' : α'} {n1 n2 : Machine} {f : α → Exec γ} {f' : α' → Exec γ'}

theorem of_ok (hx : x m1 = .ok a n1) (hx' : y m2 = .ok a' n2) (hle : ∀ {a b}, β a b → β' a b)
    (hQ : Q β' a a' n1 n2) : Sync J β x y m1 m2 Q := by
  unfold Sync
  rw [hx, hx']
  exact ⟨β', hle, hQ⟩

theorem pure (hQ : Q β a a' m1 m2) : Sync J β (pure a) (pure a') m1 m2 Q := ⟨β, fun h => h, hQ⟩

theorem throw (hJ : J β m1 m2) (e : Halt) : Sync J β (throw e : Exec α) (throw e : Exec α') m1 m2 Q :=
  ⟨rfl, β, fun h => h, hJ⟩

theorem fault (hJ : J β m1 m2) : Sync J β (Exec.fault : Exec α) (Exec.fault : Exec α') m1 m2 Q :=
  .throw hJ _

theorem bind_ok (hx : x m1 = .ok a n1) (hx' : y m2 = .ok a' n2) (h : Sync J β (f a) (f' a') n1 n2 R) :
    Sync J β (x >>= f) (y >>= f') m1 m2 R := by
  unfold Sync
  rw [run_bind hx, run_bind hx']
  exact h

theorem get_bind {f : Machine → Exec γ} {f' : Machine → Exec γ'}
    (h : Sync J β (f m1) (f' m2) m1 m2 R) :
    Sync J β (get >>= f) (get >>= f') m1 m2 R := bind_ok rfl rfl h

theorem from_le (hle : ∀ {a b}, β a b → β' a b) (h : Sync J β' x y m1 m2 Q) :
    Sync J β x y m1 m2 Q := by
  unfold Sync at h ⊢
  revert h
  cases x m1 with
  | ok a n1 =>
    cases y m2 with
    | ok a' n2 =>
      rintro ⟨β'', hle', hQ⟩
      exact ⟨β'', fun h => hle' (hle h), hQ⟩
    | error e' n2 => exact False.elim
  | error e n1 =>
    cases y m2 with
    | ok a' n2 => exact False.elim
    | error e' n2 =>
      rintro ⟨he, β'', hle', hJ⟩
      exact ⟨he, β'', fun h => hle' (hle h), hJ⟩

theorem bind (hx : Sync J β x y m1 m2 Q)
    (hf : ∀ {β' : Pairing} {a a' n1 n2}, (∀ {a b}, β a b → β' a b) → Q β' a a' n1 n2 →
      Sync J β' (f a) (f' a') n1 n2 R) : Sync J β (x >>= f) (y >>= f') m1 m2 R := by
  cases h1 : x m1 with
  | ok a n1 =>
    cases h2 : y m2 with
    | ok a' n2 =>
      unfold Sync at hx
      rw [h1, h2] at hx
      obtain ⟨β', hle, hQ⟩ := hx
      exact bind_ok h1 h2 (from_le hle (hf hle hQ))
    | error e' n2 =>
      unfold Sync at hx
      rw [h1, h2] at hx
      exact hx.elim
  | error e n1 =>
    cases h2 : y m2 with
    | ok a' n2 =>
      unfold Sync at hx
      rw [h1, h2] at hx
      exact hx.elim
    | error e' n2 =>
      unfold Sync at hx ⊢
      rw [run_bind_error h1, run_bind_error h2]
      rw [h1, h2] at hx
      exact hx

theorem with_left (hx : Sync J β x y m1 m2 Q) :
    Sync J β x y m1 m2 fun β' a a' n1 n2 => Q β' a a' n1 n2 ∧ x m1 = .ok a n1 := by
  unfold Sync at hx ⊢
  revert hx
  cases x m1 with
  | ok a n1 =>
    cases y m2 with
    | ok a' n2 =>
      rintro ⟨β', hle, h⟩
      exact ⟨β', hle, h, rfl⟩
    | error e' n2 => exact id
  | error e n1 => cases y m2 <;> exact id

theorem mono (hx : Sync J β x y m1 m2 Q)
    (hQ : ∀ {β' : Pairing} {a a' n1 n2}, (∀ {a b}, β a b → β' a b) → Q β' a a' n1 n2 →
      Q' β' a a' n1 n2) :
    Sync J β x y m1 m2 Q' := by
  unfold Sync at hx ⊢
  revert hx
  cases x m1 with
  | ok a n1 =>
    cases y m2 with
    | ok a' n2 =>
      rintro ⟨β', hle, h⟩
      exact ⟨β', hle, hQ hle h⟩
    | error e' n2 => exact id
  | error e n1 => cases y m2 <;> exact id

end Sync

/-- Both computations look at their machines and come to answers that stand in `R`, or give up. -/
inductive Reads (x : Exec α) (y : Exec α') (m1 m2 : Machine) (R : α → α' → Prop) : Prop
  | ok {a : α} {a' : α'} (left : x m1 = .ok a m1) (right : y m2 = .ok a' m2) (rel : R a a') :
      Reads x y m1 m2 R
  | error {e : Halt} (left : x m1 = .error e m1) (right : y m2 = .error e m2) : Reads x y m1 m2 R

namespace Reads

variable {R : α → α' → Prop} {S : γ → γ' → Prop} {f : α → Exec γ} {f' : α' → Exec γ'}

theorem pure {a : α} {a' : α'} (h : R a a') : Reads (pure a) (pure a') m1 m2 R := .ok rfl rfl h

theorem fault : Reads (Exec.fault : Exec α) (Exec.fault : Exec α') m1 m2 R := .error rfl rfl

theorem need {o : Option α} {o' : Option α'} (ho : Option.Rel R o o') :
    Reads (Exec.need o) (Exec.need o') m1 m2 R := by
  cases ho with
  | none => exact fault
  | some h => exact .ok rfl rfl h

theorem bind (hx : Reads x y m1 m2 R) (hf : ∀ {a a'}, R a a' → Reads (f a) (f' a') m1 m2 S) :
    Reads (x >>= f) (y >>= f') m1 m2 S := by
  cases hx with
  | ok left right rel =>
    cases hf rel with
    | ok left' right' rel' =>
      exact .ok ((run_bind left).trans left') ((run_bind right).trans right') rel'
    | error left' right' => exact .error ((run_bind left).trans left') ((run_bind right).trans right')
  | error left right => exact .error (run_bind_error left) (run_bind_error right)

theorem get_bind {f : Machine → Exec γ} {f' : Machine → Exec γ'} (h : Reads (f m1) (f' m2) m1 m2 S) :
    Reads (get >>= f) (get >>= f') m1 m2 S := by
  cases h with
  | ok left right rel => exact .ok left right rel
  | error left right => exact .error left right

theorem sync {Q : Pairing → α → α' → Machine → Machine → Prop} (hx : Reads x y m1 m2 R)
    (hJ : J β m1 m2) (hQ : ∀ {a a'}, R a a' → Q β a a' m1 m2) : Sync J β x y m1 m2 Q := by
  unfold Sync
  cases hx with
  | ok left right rel =>
    rw [left, right]
    exact ⟨β, fun h => h, hQ rel⟩
  | error left right =>
    rw [left, right]
    exact ⟨rfl, β, fun h => h, hJ⟩

theorem sync_bind {Q : Pairing → γ → γ' → Machine → Machine → Prop} (hx : Reads x y m1 m2 R)
    (hJ : J β m1 m2)
    (hf : ∀ {a a'}, R a a' → Sync J β (f a) (f' a') m1 m2 Q) :
    Sync J β (x >>= f) (y >>= f') m1 m2 Q := by
  cases hx with
  | ok left right rel => exact .bind_ok left right (hf rel)
  | error left right =>
    unfold Sync
    rw [run_bind_error left, run_bind_error right]
    exact ⟨rfl, β, fun h => h, hJ⟩

end Reads

end Exec

/-! ## Lawful bonds -/

namespace Slots

variable (view : Heap → Stack → List Value)

/-- The value of a slot. -/
def slotOf (i : Nat) : Exec Value := do
  let m ← get
  Exec.need (view m.heap m.stack)[i]?

def peekOf (distance : Nat) : Exec Value := do
  let m ← get
  Exec.need (if distance < m.stack.depth then
    (view m.heap m.stack)[m.stack.depth - 1 - distance]? else none)

def popOf : Exec Value := do
  let m ← get
  match m.stack.depth with
  | 0 => Exec.fault
  | depth + 1 =>
    let v ← Exec.need (view m.heap m.stack)[depth]?
    set { m with stack := m.stack.cutTo depth }
    pure v

/-- The values on top of the stack. -/
def topOf (n : Nat) : Exec (List Value) := do
  let m ← get
  Exec.need (if n ≤ m.stack.depth then some ((view m.heap m.stack).drop (m.stack.depth - n)) else none)

end Slots

/-- What a way to keep variables owes to the machine. -/
structure Slots.Lawful (S : Slots) : Prop where
  -- the view says all that is read of the stack
  read_eq : ∀ i, S.read i = slotOf S.view i
  peek_eq : ∀ n, S.peek n = peekOf S.view n
  pop_eq : S.pop = popOf S.view
  top_eq : ∀ n, S.top n = topOf S.view n
  length : ∀ {m : Machine}, m.Sound → (S.values m).length = m.stack.depth
  /-- What is on the stack is in use. -/
  reach : ∀ {m : Machine} {r : Ref}, m.Sound → .object r ∈ S.values m → m.heap.Reach m.roots.refs r
  cutTo : ∀ {h : Heap} {s : Stack} {n : Nat}, n ≤ s.depth → S.view h (s.cutTo n) = (S.view h s).take n
  evolves : ∀ {m : Machine} {h : Heap}, m.Sound → m.heap.Evolves m.roots.refs h →
    S.view h m.stack = S.values m
  setClosure : ∀ {h : Heap} {s : Stack} {r : Ref} {f g : Option Ref} {us vs : Array (Option Ref)},
    h.object? r = some (.closure f us) → S.view (h.setObject r (.closure g vs)) s = S.view h s

/-- **The stack of the machine is one way.** -/
theorem Slots.stack_lawful : Slots.stack.Lawful where
  read_eq i := by
    funext m
    show Exec.need (m.stack.get? i) m = Exec.need m.stack.toList[i]? m
    rw [Stack.getElem?_toList]
  peek_eq n := by
    funext m
    show Exec.need (m.stack.peek? n) m =
      Exec.need (if n < m.stack.depth then m.stack.toList[m.stack.depth - 1 - n]? else none) m
    congr 1
    split
    · rename_i hn
      rw [Stack.getElem?_toList, Stack.peek?_eq hn]
    · rename_i hn
      have hneg : ¬ (0 : Int) ≤ (m.stack.depth : Int) - 1 - n := by omega
      simp only [Stack.peek?, if_neg hneg]
  pop_eq := by
    funext m
    obtain ⟨settings, heap, ⟨cells, depth⟩, frames, globals, opens, interrupted, file, out, reports,
      clock, seed⟩ := m
    cases depth with
    | zero => rfl
    | succ d =>
      have hget : (Stack.toList ⟨cells, d + 1⟩)[d]? = cells[d]? := by
        rw [Stack.getElem?_toList]
        simp [Stack.get?]
      show Exec.pop _ = _
      unfold popOf Exec.pop
      rw [Exec.run_bind (x := get) rfl, Exec.run_bind (x := get) rfl]
      simp only [hget, Stack.pop?]
      cases cells[d]? with
      | none => rfl
      | some v => rfl
  top_eq n := by
    funext m
    show Exec.need (m.stack.top? n) m =
      Exec.need (if n ≤ m.stack.depth then some (m.stack.toList.drop (m.stack.depth - n)) else none) m
    congr 1
    split
    · rename_i hn
      rw [Stack.top?_eq hn]
    · rename_i hn
      simp only [Stack.top?, if_neg hn]
  length hm := Stack.length_toList hm.depth_le
  reach _ hr := .root (Machine.mem_refs.2 (Or.inl hr))
  cutTo hn := Stack.toList_cutTo hn
  evolves _ _ := rfl
  setClosure _ := rfl

theorem Slots.Lawful.live {S : Slots} (hS : S.Lawful) {m : Machine} (hm : m.Sound)
    (hv : v ∈ S.values m) : m.heap.LiveValue v :=
  .of_live fun _ hr => hm.heap.live_of_reach (fun _ hx => hm.roots hx) (hS.reach hm (hr ▸ hv))

theorem Slots.Lawful.pop_fault (hS : S.Lawful) {m : Machine} (hd : m.stack.depth = 0) :
    S.pop m = .error (.fault .machine) m := by
  rw [hS.pop_eq]
  unfold popOf
  rw [Exec.run_bind (x := get) rfl, hd]
  rfl

theorem Slots.Lawful.pop_ok (hS : S.Lawful) {m : Machine} {d : Nat} (hd : m.stack.depth = d + 1)
    (hv : (S.values m)[d]? = some v) : S.pop m = .ok v { m with stack := m.stack.cutTo d } := by
  rw [hS.pop_eq]
  unfold popOf
  rw [Exec.run_bind (x := get) rfl, hd]
  simp only [hv]
  rfl

/-- A value has been pushed. -/
structure Slots.Pushed (S : Slots) (v : Value) (m n : Machine) : Prop where
  values_eq : S.values n = S.values m ++ [v]
  frames_eq : n.frames = m.frames
  opens_eq : n.openUpvalues = m.openUpvalues
  evolves : m.heap.Evolves [] n.heap

theorem Slots.Pushed.mem {m n : Machine} (h : S.Pushed v m n) : v ∈ S.values n := by
  rw [h.values_eq]
  exact List.mem_append_right _ List.mem_cons_self

/-- What the two machines have to do alike. -/
structure Bond.Lawful (B : Bond) : Prop where
  right : B.right.Lawful
  /-- Objects come and go, and some that are no variables are paired. -/
  evolves : ∀ {c : Option Nat} {β β' : Pairing} {m1 m2 : Machine} {h1 h2 : Heap}, m1.Alike B c β m2 →
    m1.heap.Evolves m1.roots.refs h1 → m2.heap.Evolves m2.roots.refs h2 → (∀ {a b}, β a b → β' a b) →
    h1.Alike B.kin β' h2 →
    (∀ {a b}, β' a b → h1.Live a → β a b ∨ ∀ u, h1.object? a ≠ some (.upvalue u)) →
    B.joins c β' ⟨h1, m1.stack, m1.openUpvalues⟩ ⟨h2, m2.stack, m2.openUpvalues⟩
  setClosure : ∀ {c : Option Nat} {β : Pairing} {m1 m2 : Machine} {a b : Ref} {f g : Option Ref}
    {us vs : Array (Option Ref)} (us' vs' : Array (Option Ref)) (f' g' : Option Ref),
    m1.Alike B c β m2 → m1.heap.object? a = some (.closure f us) →
    m2.heap.object? b = some (.closure g vs) →
    B.joins c β ⟨m1.heap.setObject a (.closure f' us'), m1.stack, m1.openUpvalues⟩
      ⟨m2.heap.setObject b (.closure g' vs'), m2.stack, m2.openUpvalues⟩
  /-- Slots are given up. -/
  cutTo : ∀ {c : Option Nat} {β : Pairing} {m1 m2 : Machine} {n : Nat}, m1.Alike B c β m2 →
    n ≤ m1.stack.depth →
    (∀ last ∈ c, n ≤ last) → B.joins none β ⟨m1.heap, m1.stack.cutTo n, m1.openUpvalues⟩
      ⟨m2.heap, m2.stack.cutTo n, m2.openUpvalues⟩
  push : ∀ {β : Pairing} {m1 m2 : Machine} {v w : Value}, m1.Alike B none β m2 →
    Heap.Share β m1.heap m2.heap v w →
    (B.strict → m1.Clear m1.stack.depth) → ∃ n1 n2, Slots.stack.push v m1 = .ok () n1 ∧
    B.right.push w m2 = .ok () n2 ∧
      n1.Alike B none β n2 ∧ Slots.stack.Pushed v m1 n1 ∧ B.right.Pushed w m2 n2
  set : ∀ {β : Pairing} {m1 m2 : Machine} {i : Nat} {v w : Value}, m1.Alike B none β m2 →
    Heap.Share β m1.heap m2.heap v w →
    Exec.Sync (Machine.Alike B none) β (Slots.stack.write i v) (B.right.write i w) m1 m2
    fun β' _ _ n1 n2 =>
      n1.Alike B none β' n2
  capture : ∀ {β : Pairing} {m1 m2 : Machine} {i : Nat}, m1.Alike B none β m2 →
    (B.strict → i < m1.stack.depth) →
    Exec.Sync (Machine.Alike B none) β (Slots.stack.capture i) (B.right.capture i) m1 m2
    fun β' r s n1 n2 =>
      n1.Alike B none β' n2 ∧ Heap.Pair β' n1.heap n2.heap r s ∧
      (n1.stack.toList = m1.stack.toList ∧ B.right.values n2 = B.right.values m2) ∧
      (n1.frames = m1.frames ∧ n2.frames = m2.frames) ∧ n1.stack.depth = m1.stack.depth ∧
      m1.heap.Steady n1.heap
  read : ∀ {β : Pairing} {m1 m2 : Machine} {r s : Ref}, m1.Alike B none β m2 →
    Heap.Pair β m1.heap m2.heap r s → (B.strict → m1.Clear m1.stack.depth) →
    Exec.Reads (Slots.stack.readShared r) (B.right.readShared s) m1 m2 (Heap.Share β m1.heap m2.heap)
  write : ∀ {β : Pairing} {m1 m2 : Machine} {r s : Ref} {v w : Value}, m1.Alike B none β m2 →
    Heap.Pair β m1.heap m2.heap r s → Heap.Share β m1.heap m2.heap v w →
    (B.strict → m1.Clear m1.stack.depth) →
    Exec.Sync (Machine.Alike B none) β (Slots.stack.writeShared r v) (B.right.writeShared s w) m1 m2
    fun β' _ _ n1 n2 =>
      n1.Alike B none β' n2
  closeFrom : ∀ {β : Pairing} {m1 m2 : Machine} {last : Nat}, m1.Alike B none β m2 →
    (B.strict → m1.Clear m1.stack.depth) →
    Exec.Sync (Machine.Alike B none) β (Slots.stack.closeFrom last) (B.right.closeFrom last) m1 m2
    fun β' _ _ n1 n2 =>
      n1.Alike B (some last) β' n2 ∧ (n1.stack = m1.stack ∧ n2.stack = m2.stack) ∧
      (n1.frames = m1.frames ∧ n2.frames = m2.frames) ∧ (∀ {x}, m1.heap.Live x → n1.heap.Live x) ∧
      (∀ {x}, m2.heap.Live x → n2.heap.Live x) ∧ n1.Clear last
  abandon : ¬ B.strict → ∀ {β : Pairing} {m1 m2 : Machine}, m1.Alike B none β m2 →
    m1.abandon.Alike B none β m2.abandon

end Parlance
