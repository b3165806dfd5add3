/-
  Instructions of vetted code, calls and closures apart.

  `Doing.falls` and `Doing.lands` say what an instruction has to leave for control to go on. The
  rest is a lemma for each instruction.
-/
import Parlance.Proofs.Code.Acceptance
import Parlance.Proofs.Machine.Moves

namespace Parlance

variable {m' : Machine}

open Heap (idle)
open Exec (perform peek_eq run_bind Meets frame_eq live_of_get?)

/-! ## Instructions under way -/

/-- The instructions on two numbers. -/
def Op.isNumeric : Op → Bool
  | .greater | .greaterEqual | .less | .lessEqual | .subtract | .multiply | .divide | .modulo => true
  | _ => false

theorem Chunk.sane_of_ne {c : Chunk Constant} {op : Op} {o : Nat} (hop : op ≠ .closure) :
    c.Sane op o :=
  fun heq => (hop heq).elim

/-- The slots of the window that are open and not among the operands of `op` at `o`. -/
abbrev Window.left (w : Window) (p : Proto) (op : Op) (o : Nat) (i : Nat) : Prop :=
  i < w.height - p.chunk.pops op o ∧ w.opened i

namespace Machine

variable {g : Frame} {n : Nat} {V : Vetting} {busy : Ref → Prop} {p : Proto} {f : Frame}
  {below : Array Frame} {O : Nat → Prop} {m : Machine}

/-- The innermost call goes on at `ip`. -/
abbrev movedTo (m : Machine) (below : Array Frame) (f : Frame) (ip : Nat) : Machine :=
  { m with frames := below.push { f with ip } }

theorem At.moveTo (hm : m.At V busy p f below O) {ip : Nat} (hip : ip - 1 < p.code.size) :
    At V busy p { f with ip } below O (m.movedTo below f ip) :=
  { hm with
    sound := by
      refine hm.sound.withFrames fun g hg => ?_
      rcases Array.mem_push.1 hg with hg | rfl
      · exact hm.sound.frames (hm.frames_eq ▸ Array.mem_push.2 (Or.inl hg))
      · exact hm.live_closure
    frames_eq := rfl
    line := hip }

theorem At.exists_upvalueOf (hat : m.At V busy p g below O) (hnot : ¬ busy g.closure)
    {i : Nat} (hi : (i : Int) < p.upvalueCount) : ∃ o, Exec.upvalueOf g.closure i m = .ok o m ∧
      (∀ y, o = some y → m.heap.Live y) ∧
      (V.strict → ∃ y u, o = some y ∧ m.heap.object? y = some (.upvalue u)) := by
  obtain ⟨r, us, hobj, hsize, -⟩ := hat.runs
  have hlt : i < us.size := by omega
  have hus : us[i]? = some us[i] := Array.getElem?_eq_getElem hlt
  refine ⟨us[i], ?_, fun y hy => ?_, fun hstrict => ?_⟩
  · unfold Exec.upvalueOf
    rw [run_bind (Exec.object_eq hobj)]
    simp only [hus]
    rfl
  · exact hat.sound.heap.closed hat.live_closure hobj y (Heap.mem_children_upvalue (hy ▸ hus))
  · obtain ⟨y, u, hy, hu⟩ := hat.vetted.filled hstrict hat.live_closure hnot hobj hlt
    rw [hus] at hy
    exact ⟨y, u, Option.some.inj hy, hu⟩

theorem At.writeUpvalue (hat : m.At V idle p g below O) {y : Ref} {v : Value}
    (hl : m.heap.Live y) (hv : m.heap.LiveValue v)
    (hup : V.strict → ∃ u, m.heap.object? y = some (.upvalue u)) :
    Meets V (Exec.writeUpvalue y v) m fun _ m' => m'.At V idle p g below O ∧
      m'.stack.depth = m.stack.depth := by
  unfold Exec.writeUpvalue
  refine .bind (.upvalue hat.sound hat.vetted hl hup) ?_
  rintro u m' ⟨heq, hu⟩
  subst m'
  split
  · rename_i hopen
    unfold Exec.setSlot
    refine .bind_ok (x := get) rfl ?_
    split
    · exact .of_ok (x := modify _) rfl ⟨hat.put u.slot hv, rfl⟩
    · rename_i hge
      refine .fault (fun hstrict => ?_) hat.sound hat.vetted
      have hlt := hat.standing.open_lt hstrict y (hat.sound.opens.all hl hu hopen)
      rw [Heap.slotAt_eq hu] at hlt
      exact hge hlt
  · rename_i hclosed
    have hs := hat.sound.setClosed hu (by simpa using hclosed) hv
    refine .of_ok (x := Exec.setObject _ _) rfl ⟨?_, rfl⟩
    exact hat.keep hs (hat.vetted.setUpvalue hat.sound.heap hu rfl hs.heap)
      (Heap.steady_setObject hu ⟨_, rfl, rfl⟩) rfl rfl rfl

theorem At.intern (hat : m.At V busy p g below O) (text : String) : ∃ key h',
    Exec.intern text m = .ok key { m with heap := h' } ∧
      Machine.At V busy p g below O { m with heap := h' } ∧
    h'.Live key.ref ∧ h'.object? key.ref = some (.text text (hashText text)) := by
  have hroots : ∀ r ∈ m.roots.refs, m.heap.Live r := fun r hr => hat.sound.roots hr
  have hi := hat.sound.heap.intern hroots text
  have hadds : Heap.Adds Object.Plain m.heap (m.heap.intern m.roots text).2 := hi.adds fun _ h => h
  have hs := hat.sound.evolves hi.toEvolves hi.addsNoOpen
  refine ⟨_, _, rfl, hat.keep hs ?_ hi.toEvolves.steady rfl rfl rfl, hi.live_key, hi.object_key⟩
  exact hat.vetted.evolves hi.toEvolves hat.sound.heap fun hl hge ho => (hadds hl hge ho).welcome V

/-- Where the machine is after a turn. -/
def Goes (V : Vetting) (m : Machine) : Exec.Progress → Prop
  | .running => m.Placed V
  | .finished => m.Ready V

/-- The instruction `op` does what vetted code may do. -/
abbrev Performs (V : Vetting) (host : Host) (op : Op) (m : Machine) : Prop :=
  Meets V (perform host op) m fun a m' => m'.Goes V a

/-- The instruction `op` at `f.ip` is under way: its byte has been read. -/
structure Doing (V : Vetting) (p : Proto) (f : Frame) (below : Array Frame) (w : Window) (op : Op)
    (m : Machine) : Prop where
  at_ : m.At V idle p { f with ip := f.ip + 1 } below w.opened
  chart : V.chart p f.ip = some w
  op_eq : p.chunk.op? f.ip = some op
  depth : m.stack.depth = f.base + w.height

namespace Doing

variable {w : Window} {op : Op} {host : Host}

section

variable (hm : m.Doing V p f below w op)
include hm

theorem fits : p.chunk.Fits p.upvalueCount op f.ip w :=
  V.fits hm.at_.good hm.at_.arity hm.chart hm.op_eq

theorem inside : f.ip + (1 + op.width) ≤ p.code.size :=
  V.whole hm.at_.good hm.at_.arity.1 hm.at_.arity.2 hm.chart hm.op_eq

theorem kept (hclose : op ≠ .closeUpvalue) :
    m.At V idle p { f with ip := f.ip + 1 } below (w.left p op f.ip) := by
  refine hm.at_.narrow fun hstrict i hi hlt => ⟨Nat.lt_of_not_le fun hge => ?_, hi⟩
  have hdepth := hm.depth
  have hlt' : i < w.height := by
    simp only at hlt
    omega
  exact (V.tidy hstrict hm.at_.good hm.chart hm.op_eq).closed hclose i (by omega) hlt' hi

theorem flows (hsane : p.chunk.Sane op f.ip) {d : Int} (hd : d ∈ p.chunk.targets op f.ip) :
    ∃ n : Nat, d = n ∧ (V.chart p).Lands n (p.chunk.after op f.ip w) :=
  (V.charted hm.at_.good hm.at_.arity.1 hm.at_.arity.2).flows hm.chart hm.op_eq hsane d hd

theorem operand (hwidth : 1 ≤ op.width) :
    ∃ b : UInt8, p.code[f.ip + 1]? = some b ∧ b.toNat = p.chunk.byte (f.ip + 1) := by
  have hin := hm.inside
  have hlt : f.ip + 1 < p.code.size := by omega
  exact ⟨p.code[f.ip + 1], Array.getElem?_eq_getElem hlt, by simp [Chunk.byte, Proto.chunk, hlt]⟩

/-- Control goes to `n` with the window that the instruction leaves. -/
theorem lands {O' : Nat → Prop} (hat : m'.At V idle p { f with ip := n } below O')
    (hsane : p.chunk.Sane op f.ip) (hn : (n : Int) ∈ p.chunk.targets op f.ip)
    (hdepth : m'.stack.depth + p.chunk.pops op f.ip = m.stack.depth + p.chunk.pushes op f.ip)
    (hO : V.strict → ∀ i, O' i → (p.chunk.after op f.ip w).opened i) : m'.Placed V := by
  obtain ⟨n', heq, w', hw', hle⟩ := hm.flows hsane hn
  obtain rfl : n = n' := Int.ofNat.inj heq
  have hroom := hm.fits.room
  rw [hm.depth] at hdepth
  refine ⟨p, _, below, w', hat.narrow fun hstrict i hi _ => hle.2 i (hO hstrict i hi), hw', ?_⟩
  rw [← hle.1]
  simp only [Chunk.after]
  omega

theorem falls (hat : m'.At V idle p { f with ip := n } below
      (w.left p op f.ip))
    (hop : op ≠ .closure) (hfalls : op.falls = true) (hn : n = f.ip + (1 + op.width))
    (hdepth : m'.stack.depth + p.chunk.pops op f.ip = m.stack.depth + p.chunk.pushes op f.ip) :
    m'.Placed V := by
  have hlen : p.chunk.length op f.ip = 1 + op.width := by
    cases op <;> first | rfl | exact (hop rfl).elim
  refine hm.lands hat (Chunk.sane_of_ne hop) ?_ hdepth fun _ i hi => Or.inl hi
  rw [Chunk.targets, hfalls, hlen, ← hn]
  simp

theorem base_lt : f.base < m.stack.depth := by
  have hroom := hm.fits.room
  have hdepth := hm.depth
  omega

theorem peek {O' : Nat → Prop} (hat : m'.At V idle p g below O') (hstack : m'.stack = m.stack) :
    ∃ v, Exec.peek 0 m' = .ok v m' ∧ m'.heap.LiveValue v := by
  have hlt := hm.base_lt
  obtain ⟨v, hv, hpeek⟩ := peek_eq hat.sound.depth_le (n := 0) (by rw [hstack]; omega)
  exact ⟨v, hpeek, live_of_get? hat.sound hv⟩

theorem push {n : Nat} {v : Value} (hat : m'.At V idle p { f with ip := n } below
      (w.left p op f.ip)) (hv : m'.heap.LiveValue v)
    (hop : op ≠ .closure) (hfalls : op.falls = true) (hn : n = f.ip + (1 + op.width))
    (hdepth : m'.stack.depth + p.chunk.pops op f.ip + 1 = m.stack.depth + p.chunk.pushes op f.ip) :
    Meets V (Exec.push v >>= fun _ => pure .running) m' fun a m' => m'.Goes V a := by
  refine .bind_ok (x := Exec.push v) rfl (.pure ?_)
  refine hm.falls (hat.push hv) hop hfalls hn ?_
  simp only [Stack.depth_push]
  omega

theorem literal (v : Value) (hv : m.heap.LiveValue v)
    (hop : op = .pushNul ∨ op = .pushTrue ∨ op = .pushFalse) :
    Meets V (Exec.push v >>= fun _ => pure .running) m fun a m' => m'.Goes V a := by
  rcases hop with rfl | rfl | rfl <;> exact hm.push (hm.kept nofun) hv nofun rfl rfl rfl

/-- What is left when the operands are popped. -/
theorem popped : f.base + w.height - p.chunk.pops op f.ip + p.chunk.pops op f.ip = m.stack.depth := by
  have hdepth := hm.depth
  have hroom := hm.fits.room
  omega

theorem cut {n : Nat} (hat : m'.At V idle p { f with ip := n } below (w.left p op f.ip))
    (hstack : m'.stack = m.stack) : Machine.At V idle p { f with ip := n } below (w.left p op f.ip)
      { m' with stack := m'.stack.cutTo (f.base + w.height - p.chunk.pops op f.ip) } := by
  have hdepth := hm.depth
  have hroom := hm.fits.room
  refine hat.cutTo (by rw [hstack]; omega) (by simp only; omega) fun _ i hi _ => ?_
  simp only at hi ⊢
  omega

/-- The instruction pops its only operand. -/
theorem popOne (hat : m'.At V idle p { f with ip := n } below (w.left p op f.ip))
    (hstack : m'.stack = m.stack) (hpops : p.chunk.pops op f.ip = 1) : ∃ v : Value,
      m'.heap.LiveValue v ∧
      Exec.pop m' = .ok v { m' with stack := m'.stack.cutTo (f.base + w.height - 1) } ∧
      Machine.At V idle p { f with ip := n } below (w.left p op f.ip)
        { m' with stack := m'.stack.cutTo (f.base + w.height - 1) } := by
  have hcut := hm.cut hat hstack
  have hdepth := hm.popped
  rw [hpops] at hcut hdepth
  obtain ⟨v, hv, hpop⟩ :=
    Exec.pop_eq hat.sound.depth_le (n := f.base + w.height - 1) (by rw [hstack, hdepth])
  exact ⟨v, live_of_get? hat.sound hv, hpop, hcut⟩

/-- The instruction pops its two operands. -/
theorem popTwo (hat : m'.At V idle p { f with ip := n } below (w.left p op f.ip))
    (hstack : m'.stack = m.stack) (hpops : p.chunk.pops op f.ip = 2) : ∃ a b : Value,
      Exec.pop m' = .ok b { m' with stack := m'.stack.cutTo (f.base + w.height - 2 + 1) } ∧
      Exec.pop { m' with stack := m'.stack.cutTo (f.base + w.height - 2 + 1) } =
        .ok a { m' with stack := m'.stack.cutTo (f.base + w.height - 2) } ∧
      Machine.At V idle p { f with ip := n } below (w.left p op f.ip)
        { m' with stack := m'.stack.cutTo (f.base + w.height - 2) } := by
  have hcut := hm.cut hat hstack
  have hdepth := hm.popped
  rw [hpops, ← hstack] at hdepth
  rw [hpops] at hcut
  have hle := hat.sound.depth_le
  obtain ⟨b, -, hpop⟩ := Exec.pop_eq hle hdepth.symm
  obtain ⟨a, -, hpop'⟩ :=
    Exec.pop_eq (m := { m' with stack := m'.stack.cutTo (f.base + w.height - 2 + 1) })
    (by simp only [Stack.cutTo]; omega) rfl
  exact ⟨a, b, hpop, hpop', hcut⟩

theorem behindOperand (hclose : op ≠ .closeUpvalue) (hwidth : 1 ≤ op.width) :
    Machine.At V idle p { f with ip := f.ip + 1 + 1 } below (w.left p op f.ip)
      (m.movedTo below f (f.ip + 1 + 1)) := by
  have hin := hm.inside
  exact (hm.kept hclose).moveTo (by omega)

theorem readByte (hwidth : 1 ≤ op.width) : ∃ b : UInt8, b.toNat = p.chunk.byte (f.ip + 1) ∧
    Exec.readByte m = .ok b (m.movedTo below f (f.ip + 1 + 1)) := by
  obtain ⟨b, hb, hbyte⟩ := hm.operand hwidth
  exact ⟨b, hbyte, Exec.readByte_eq hm.at_.frames_eq hm.at_.runs hb⟩

theorem readConstant (hwidth : 1 ≤ op.width) {k : Constant}
    (hk : p.chunk.constants[p.chunk.byte (f.ip + 1)]? = some k) : ∃ v low,
      Exec.readConstant m = .ok v (m.movedTo below f (f.ip + 1 + 1)) ∧
      m.heap.ConstantIs low k v ∧ m.heap.LiveValue v := by
  obtain ⟨b, hb, hbyte⟩ := hm.operand hwidth
  have hk' : p.constants[b.toNat]? = some k := by
    rw [hbyte, ← hk]
    simp [Proto.chunk]
  obtain ⟨v, low, hread, his, hreach⟩ := Exec.exists_readConstant hm.at_.frames_eq hm.at_.runs hb hk'
  refine ⟨v, low, hread, his, .of_live fun y hy =>
    hm.at_.sound.heap.live_of_reach (fun x hx => ?_) (hreach y hy)⟩
  rw [List.mem_singleton.1 hx]
  exact hm.at_.live_closure

theorem readName (hop : op = .getGlobal ∨ op = .defineGlobal ∨ op = .setGlobal) :
    ∃ (key : Symbol) (v : Value), Exec.readConstant m = .ok v (m.movedTo below f (f.ip + 1 + 1)) ∧
    Exec.symbol v (m.movedTo below f (f.ip + 1 + 1)) =
      .ok key (m.movedTo below f (f.ip + 1 + 1)) ∧
    m.heap.Live key.ref ∧ m.heap.object? key.ref = some (.text key.text key.hash) := by
  have hk : ∃ s, p.chunk.constants[p.chunk.byte (f.ip + 1)]? = some (.text s) := by
    have := hm.fits.operand
    rcases hop with rfl | rfl | rfl <;> exact this
  obtain ⟨s, hk⟩ := hk
  obtain ⟨v, low, hread, his, hlive⟩ :=
    hm.readConstant (by rcases hop with rfl | rfl | rfl <;> decide) hk
  obtain ⟨x, rfl, hx⟩ := his.1
  exact ⟨⟨x, s, hashText s⟩, .object x, hread, Exec.symbol_eq (m := { m with frames := _ }) hx,
    hlive, hx⟩

end

/-! ### Literals and variables -/

theorem constant (hm : m.Doing V p f below w .constant) : m.Performs V host .constant := by
  obtain ⟨k, hk⟩ := hm.fits.operand
  obtain ⟨v, low, hread, -, hlive⟩ := hm.readConstant (by decide) hk
  unfold Performs perform
  exact .bind_ok hread (hm.push (hm.behindOperand nofun (by decide)) hlive nofun rfl rfl rfl)

theorem pop (hm : m.Doing V p f below w .pop) : m.Performs V host .pop := by
  obtain ⟨v, -, hpop, hat⟩ := hm.popOne (hm.kept nofun) rfl rfl
  unfold Performs perform
  exact .bind_ok (x := discard Exec.pop) (run_bind hpop) (.pure (hm.falls hat nofun rfl rfl hm.popped))

theorem getLocal (hm : m.Doing V p f below w .getLocal) : m.Performs V host .getLocal := by
  have hdepth := hm.depth
  have hslot : p.chunk.byte (f.ip + 1) < w.height := hm.fits.operand
  obtain ⟨b, hbyte, hread⟩ := hm.readByte (by decide)
  have hat := hm.behindOperand nofun (by decide)
  obtain ⟨v, hv⟩ := Stack.get?_of_lt hm.at_.sound.depth_le (i := f.base + b.toNat) (by omega)
  have hlive : m.heap.LiveValue v := live_of_get? hm.at_.sound hv
  unfold Performs perform
  refine .bind_ok hread (.bind_ok (frame_eq rfl) ?_)
  exact .bind_ok (Exec.getSlot_eq hv) (hm.push hat hlive nofun rfl rfl rfl)

theorem setLocal (hm : m.Doing V p f below w .setLocal) : m.Performs V host .setLocal := by
  have hdepth := hm.depth
  have hslot : p.chunk.byte (f.ip + 1) < w.height := hm.fits.operand
  obtain ⟨b, hbyte, hread⟩ := hm.readByte (by decide)
  have hat := hm.behindOperand nofun (by decide)
  obtain ⟨v, hpeek, hlive⟩ := hm.peek hat rfl
  unfold Performs perform
  refine .bind_ok hread (.bind_ok (frame_eq rfl) (.bind_ok hpeek ?_))
  exact .bind_ok (Exec.setSlot_eq v (by simp only; omega))
    (.pure (hm.falls (hat.put (f.base + b.toNat) hlive) nofun rfl rfl rfl))

/-! ### Globals -/

theorem getGlobal (hm : m.Doing V p f below w .getGlobal) : m.Performs V host .getGlobal := by
  obtain ⟨key, v, hread, hkey, -, hobj⟩ := hm.readName (Or.inl rfl)
  have hat := hm.behindOperand nofun (by decide)
  unfold Performs perform
  refine .bind_ok hread (.bind_ok hkey (.bind_ok (x := get) rfl ?_))
  simp only
  cases hget : m.globals.get? key with
  | none => exact .raise_bind hat.standing (by nofun)
  | some u =>
    have hholds := (hm.at_.sound.table.get?_eq_some_iff (hm.at_.sound.knows hobj)).1 hget
    exact hm.push hat (hm.at_.sound.globals hholds).2.2 nofun rfl rfl rfl

theorem defineGlobal (hm : m.Doing V p f below w .defineGlobal) : m.Performs V host .defineGlobal := by
  obtain ⟨key, v, hread, hkey, hl, hobj⟩ := hm.readName (Or.inr (Or.inl rfl))
  have hat := hm.behindOperand nofun (by decide)
  obtain ⟨u, hpeek, hlive⟩ := hm.peek hat rfl
  have hset := hat.withGlobals (hat.sound.setGlobal hl hobj hlive)
  obtain ⟨_, -, hpop, hcut⟩ := hm.popOne hset rfl rfl
  unfold Performs perform
  refine .bind_ok hread (.bind_ok hkey (.bind_ok hpeek (.bind_ok (x := modify _) rfl ?_)))
  exact .bind_ok (x := discard Exec.pop) (run_bind hpop)
    (.pure (hm.falls hcut nofun rfl rfl hm.popped))

theorem setGlobal (hm : m.Doing V p f below w .setGlobal) : m.Performs V host .setGlobal := by
  obtain ⟨key, v, hread, hkey, hl, hobj⟩ := hm.readName (Or.inr (Or.inr rfl))
  have hat := hm.behindOperand nofun (by decide)
  obtain ⟨u, hpeek, hlive⟩ := hm.peek hat rfl
  have hset := hat.withGlobals (hat.sound.setGlobal hl hobj hlive)
  have herase := hset.withGlobals (hset.sound.eraseGlobal hobj)
  unfold Performs perform
  refine .bind (Q := fun _ m' => m'.Placed V) ?_ fun _ _ hplaced => hplaced
  unfold Exec.performSetGlobal
  refine .bind_ok hread (.bind_ok hkey (.bind_ok hpeek (.bind_ok (x := get) rfl ?_)))
  simp only
  split
  · exact .bind_ok (x := set _) rfl (.raise herase.standing (by nofun))
  · exact .of_ok (x := set _) rfl (hm.falls hset nofun rfl rfl rfl)

/-! ### Captured variables -/

theorem upvalueAt (hm : m.Doing V p f below w op) (hop : op = .getUpvalue ∨ op = .setUpvalue) :
    ∃ (b : UInt8) (o : Option Ref), Exec.readByte m = .ok b (m.movedTo below f (f.ip + 1 + 1)) ∧
    Exec.upvalueOf f.closure b.toNat (m.movedTo below f (f.ip + 1 + 1)) =
      .ok o (m.movedTo below f (f.ip + 1 + 1)) ∧
    (∀ y, o = some y → m.heap.Live y) ∧
    (V.strict → ∃ y u, o = some y ∧ m.heap.object? y = some (.upvalue u)) := by
  have hlt : (p.chunk.byte (f.ip + 1) : Int) < p.upvalueCount := by
    have := hm.fits.operand
    rcases hop with rfl | rfl <;> exact this
  obtain ⟨b, hbyte, hread⟩ := hm.readByte (by rcases hop with rfl | rfl <;> decide)
  have hat := hm.behindOperand (by rcases hop with rfl | rfl <;> nofun)
    (by rcases hop with rfl | rfl <;> decide)
  obtain ⟨o, ho, hl, hfilled⟩ := hat.exists_upvalueOf id (hbyte.symm ▸ hlt)
  exact ⟨b, o, hread, ho, hl, hfilled⟩

theorem need_bind {busy : Ref → Prop} {α : Type} {g : Ref → Exec α} {Q : α → Machine → Prop}
    {o : Option Ref} (hs : m.Sound)
    (hv : m.heap.Vetted V busy)
    (hfilled : V.strict → ∃ y u, o = some y ∧ m.heap.object? y = some (.upvalue u))
    (hg : ∀ y, o = some y → (V.strict → ∃ u, m.heap.object? y = some (.upvalue u)) →
      Meets V (g y) m Q) :
    Meets V (Exec.need o >>= g) m Q := by
  cases o with
  | none =>
    exact .bind (.need hs hv (Q := fun _ _ => False) (fun hstrict => nomatch hfilled hstrict) nofun)
      fun _ _ => False.elim
  | some y =>
    refine .bind_need rfl (hg y rfl fun hstrict => ?_)
    obtain ⟨_, u, ⟨⟩, hu⟩ := hfilled hstrict
    exact ⟨u, hu⟩

theorem getUpvalue (hm : m.Doing V p f below w .getUpvalue) : m.Performs V host .getUpvalue := by
  obtain ⟨b, o, hread, ho, hl, hfilled⟩ := hm.upvalueAt (Or.inl rfl)
  have hat := hm.behindOperand nofun (by decide)
  unfold Performs perform
  refine .bind_ok hread (.bind_ok (frame_eq rfl) (.bind_ok ho ?_))
  refine need_bind hat.sound hat.vetted hfilled fun y hy hu =>
    .bind (.readUpvalue hat.standing (hl y hy) hu) ?_
  rintro v m' ⟨rfl, hv⟩
  exact hm.push hat hv nofun rfl rfl rfl

theorem setUpvalue (hm : m.Doing V p f below w .setUpvalue) : m.Performs V host .setUpvalue := by
  obtain ⟨b, o, hread, ho, hl, hfilled⟩ := hm.upvalueAt (Or.inr rfl)
  have hat := hm.behindOperand nofun (by decide)
  obtain ⟨v, hpeek, hlive⟩ := hm.peek hat rfl
  unfold Performs perform
  refine .bind_ok hread (.bind_ok (frame_eq rfl) (.bind_ok ho (.bind_ok hpeek ?_)))
  refine need_bind hat.sound hat.vetted hfilled fun y hy hu =>
    .bind (hat.writeUpvalue (hl y hy) hlive hu) ?_
  rintro _ m' ⟨hat', hd⟩
  exact hm.falls hat' nofun rfl rfl (congrArg (· + 1) hd)

/-! ### Operators -/

theorem equality (hm : m.Doing V p f below w op) (hop : op = .equal ∨ op = .notEqual)
    (same : Value → Value → Bool) : Meets V (do
      let b ← Exec.pop
      let a ← Exec.pop
      Exec.push (.bool (same a b))
      pure .running) m fun a m' => m'.Goes V a := by
  obtain ⟨a, b, hpop, hpop', hat⟩ := hm.popTwo (hm.kept (by rcases hop with rfl | rfl <;> nofun)) rfl
    (by rcases hop with rfl | rfl <;> rfl)
  refine .bind_ok hpop (.bind_ok hpop' ?_)
  rcases hop with rfl | rfl <;> exact hm.push hat trivial nofun rfl rfl (congrArg (· + 1) hm.popped)

theorem replaceTwo {v : Value} (hm : m.Doing V p f below w op)
    (hat : m'.At V idle p { f with ip := f.ip + 1 } below (w.left p op f.ip))
    (hv : m'.heap.LiveValue v) (hd : m'.stack.depth = f.base + w.height - 2)
    (hop : op.isNumeric = true ∨ op = .add) : Meets V (Exec.push v) m' fun _ m' => m'.Placed V := by
  have hdepth := hm.popped
  have hpops : p.chunk.pops op f.ip = 2 ∧ p.chunk.pushes op f.ip = 1 ∧ op.width = 0 ∧
      op.falls = true := by
    rcases hop with hop | rfl
    · cases op <;> first | exact ⟨rfl, rfl, rfl, rfl⟩ | cases hop
    · exact ⟨rfl, rfl, rfl, rfl⟩
  obtain ⟨hpops, hpushes, hwidth, hfalls⟩ := hpops
  refine .of_ok (x := Exec.push v) rfl (hm.falls (hat.push hv) ?_ hfalls (by rw [hwidth]) ?_)
  · rintro rfl
    rcases hop with hop | hop <;> cases hop
  · simp only [Stack.depth_push, hpops, hpushes, hd] at hdepth ⊢
    omega

theorem arithmetic (hm : m.Doing V p f below w op) (hop : op.isNumeric = true) :
    Meets V (Exec.performArithmetic op) m fun _ m' => m'.Placed V := by
  have hdepth := hm.depth
  have hroom := hm.fits.room
  have hne : op ≠ .closeUpvalue := by
    rintro rfl
    cases hop
  have hpops : p.chunk.pops op f.ip = 2 := by cases op <;> first | rfl | cases hop
  have hkept := hm.kept hne
  obtain ⟨_, _, hpop, hpop', hat⟩ := hm.popTwo hkept rfl hpops
  obtain ⟨b', hb', hpeek⟩ := peek_eq hm.at_.sound.depth_le (n := 0) (by omega)
  obtain ⟨a', ha', hpeek'⟩ := peek_eq hm.at_.sound.depth_le (n := 1) (by omega)
  unfold Exec.performArithmetic
  refine .bind_ok hpeek ?_
  cases b' with
  | number y =>
    refine .bind_ok hpeek' ?_
    cases a' with
    | number x =>
      refine .bind_ok (x := discard Exec.pop) (run_bind hpop)
        (.bind_ok (x := discard Exec.pop) (run_bind hpop') ?_)
      cases hval : Exec.arithmetic op x y with
      | error e =>
        refine .raise hat.standing ?_
        rintro f rfl
        unfold Exec.arithmetic at hval
        split at hval <;> first | cases hval | (split at hval <;> cases hval)
      | ok v =>
        refine hm.replaceTwo hat (.of_live ?_) rfl (Or.inl hop)
        rintro r rfl
        unfold Exec.arithmetic at hval
        split at hval <;> first | cases hval | (split at hval <;> cases hval)
    | _ => exact .raise hkept.standing (by nofun)
  | _ => exact .bind_ok (x := pure Value.nul) rfl (.raise hkept.standing (by nofun))

theorem exists_charsOf (v : Value) (m : Machine) : ∃ s, Exec.charsOf v m = .ok s m := by
  cases v <;> exact ⟨_, rfl⟩

theorem add (hm : m.Doing V p f below w .add) : Meets V Exec.performAdd m fun _ m' => m'.Placed V := by
  have hdepth := hm.depth
  have hroom := hm.fits.room
  simp only [Chunk.pops, stackEffect] at hroom
  have hkept := hm.kept (by decide)
  obtain ⟨b', hb', hpeek⟩ := peek_eq hm.at_.sound.depth_le (n := 0) (by omega)
  obtain ⟨a', ha', hpeek'⟩ := peek_eq hm.at_.sound.depth_le (n := 1) (by omega)
  unfold Exec.performAdd
  refine .bind_ok hpeek (.bind_ok hpeek' ?_)
  split
  · obtain ⟨_, _, hpop, hpop', hat⟩ := hm.popTwo hkept rfl rfl
    refine .bind_ok (x := discard Exec.pop) (run_bind hpop)
      (.bind_ok (x := discard Exec.pop) (run_bind hpop') ?_)
    exact hm.replaceTwo hat trivial rfl (Or.inr rfl)
  · obtain ⟨s, hs⟩ := exists_charsOf a' m
    obtain ⟨t, ht⟩ := exists_charsOf b' m
    refine .bind_ok hs (.bind_ok ht ?_)
    split
    · obtain ⟨key, h', hintern, hat', hlive, -⟩ := hkept.intern _
      obtain ⟨_, _, hpop, hpop', hcut⟩ := hm.popTwo hat' rfl rfl
      refine .bind_ok hintern (.bind_ok (x := discard Exec.pop) (run_bind hpop)
        (.bind_ok (x := discard Exec.pop) (run_bind hpop') ?_))
      exact hm.replaceTwo hcut hlive rfl (Or.inr rfl)
    · exact .raise hkept.standing (by simp)

theorem not (hm : m.Doing V p f below w .not) : m.Performs V host .not := by
  obtain ⟨v, -, hpop, hat⟩ := hm.popOne (hm.kept nofun) rfl rfl
  unfold Performs perform
  exact .bind_ok hpop (hm.push hat trivial nofun rfl rfl (congrArg (· + 1) hm.popped))

theorem negate (hm : m.Doing V p f below w .negate) : m.Performs V host .negate := by
  obtain ⟨_, -, hpop, hat⟩ := hm.popOne (hm.kept nofun) rfl rfl
  obtain ⟨v, hpeek, -⟩ := hm.peek hm.at_ rfl
  unfold Performs perform
  refine .bind_ok hpeek ?_
  cases v with
  | number x =>
    exact .bind_ok (x := discard Exec.pop) (run_bind hpop)
      (hm.push hat trivial nofun rfl rfl (congrArg (· + 1) hm.popped))
  | _ => exact .raise_bind (hm.kept nofun).standing (by nofun)

theorem print (hm : m.Doing V p f below w .print) : m.Performs V host .print := by
  have hdepth := hm.depth
  have hroom := hm.fits.room
  simp only [Chunk.pops, stackEffect] at hroom
  obtain ⟨b, hbyte, hread⟩ := hm.readByte (by decide)
  have hat := hm.behindOperand (by decide) (by decide)
  have htop := Exec.top_eq (m := m.movedTo below f (f.ip + 1 + 1)) (n := b.toNat) (by simp only; omega)
  obtain ⟨s, hs⟩ := Exec.exists_foldlM_text hat.vetted (fun acc t => acc ++ t)
    (m.stack.toList.drop (m.stack.depth - b.toNat))
    (fun v hv => hat.sound.stack (List.mem_of_mem_drop hv)) ""
  have hcut := hm.cut hat rfl
  have hleft := hm.popped
  rw [← hdepth] at hcut hleft
  unfold Performs perform
  refine .bind_ok hread (.bind (Q := fun _ m' => m'.Placed V) ?_ fun _ _ hplaced => hplaced)
  unfold Exec.performPrint
  refine .bind_ok htop (.bind_ok hs ?_)
  rw [hbyte]
  refine .of_ok (x := modify _) rfl (hm.falls (n := f.ip + 1 + 1) ?_ (by decide) rfl rfl hleft)
  exact { hcut with sound := { hcut.sound with } }

/-! ### Jumps -/

theorem readShort (hm : m.Doing V p f below w op) (hop : isJump op = true) :
    ∃ n, p.chunk.short? (f.ip + 1) = some n ∧
    Exec.readShort m = .ok n (m.movedTo below f (f.ip + 1 + 2)) ∧
    Machine.At V idle p { f with ip := f.ip + 1 + 2 } below (w.left p op f.ip)
      (m.movedTo below f (f.ip + 1 + 2)) := by
  have hne : op ≠ .closure ∧ op ≠ .closeUpvalue := by
    constructor <;> rintro rfl <;> cases hop
  have hwidth : op.width = 2 := by cases op <;> first | rfl | cases hop
  have hin := hm.inside
  rw [hwidth] at hin
  have hshort : ∃ n, p.chunk.short? (f.ip + 1) = some n := by
    simp [Chunk.short?, Proto.chunk, show f.ip + 1 < p.code.size by omega, show f.ip + 1 + 1 <
      p.code.size by omega]
  obtain ⟨n, hn⟩ := hshort
  exact ⟨n, hn, Exec.readShort_eq hm.at_.frames_eq hm.at_.runs hn, (hm.kept hne.2).moveTo (by omega)⟩

theorem jumps (hm : m.Doing V p f below w op) {ip : Nat}
    (hat : m'.At V idle p { f with ip := g.ip } below (w.left p op f.ip))
    (hop : isJump op = true) (hip : p.chunk.jumpTarget op f.ip = ip)
    (hd : m'.stack.depth + p.chunk.pops op f.ip = m.stack.depth + p.chunk.pushes op f.ip) :
    Meets V (Exec.jumpTo ip >>= fun _ => pure .running) m' fun a m' => m'.Goes V a := by
  have hmem : (ip : Int) ∈ p.chunk.targets op f.ip := by
    rw [Chunk.targets, hop, hip]
    exact List.mem_append_left _ List.mem_cons_self
  have hne : op ≠ .closure := by
    rintro rfl
    cases hop
  obtain ⟨n, heq, w', hw', -⟩ := hm.flows (Chunk.sane_of_ne hne) hmem
  obtain rfl : ip = n := Int.ofNat.inj heq
  obtain ⟨op', hfits⟩ := (V.charted hat.good hat.arity.1 hat.arity.2).fits hw'
  have hlt : ip < p.code.size := hfits.lt_size
  refine .bind_ok (Exec.jumpTo_eq hat.frames_eq ip) (.pure ?_)
  exact hm.lands (hat.moveTo (by omega)) (Chunk.sane_of_ne hne) hmem hd fun _ i hi => Or.inl hi

theorem jump (hm : m.Doing V p f below w .jump) : m.Performs V host .jump := by
  obtain ⟨n, hn, hread, hat⟩ := hm.readShort rfl
  unfold Performs perform
  refine .bind_ok hread
    (.bind_ok (frame_eq rfl) (hm.jumps (g := { f with ip := f.ip + 1 + 2 }) hat rfl ?_ rfl))
  simp only [Chunk.jumpTarget, hn, Option.getD_some]
  omega

theorem jumpIfFalse (hm : m.Doing V p f below w .jumpIfFalse) : m.Performs V host .jumpIfFalse := by
  obtain ⟨n, hn, hread, hat⟩ := hm.readShort rfl
  obtain ⟨v, hpeek, -⟩ := hm.peek hat rfl
  unfold Performs perform
  refine .bind_ok hread (.bind_ok hpeek ?_)
  split
  · refine .bind_ok (frame_eq rfl) (hm.jumps (g := { f with ip := f.ip + 1 + 2 }) hat rfl ?_ rfl)
    simp only [Chunk.jumpTarget, hn, Option.getD_some]
    omega
  · exact .pure (hm.falls hat (by decide) rfl rfl rfl)

theorem loop (hm : m.Doing V p f below w .loop) : m.Performs V host .loop := by
  obtain ⟨n, hn, hread, hat⟩ := hm.readShort rfl
  have htarget : p.chunk.jumpTarget .loop f.ip = (f.ip : Int) + 3 - n := by
    simp only [Chunk.jumpTarget, hn, Option.getD_some]
  -- the chart has no instruction before the code
  have hle : n ≤ f.ip + 1 + 2 := by
    have hmem : p.chunk.jumpTarget .loop f.ip ∈ p.chunk.targets .loop f.ip :=
      List.mem_append_left _ List.mem_cons_self
    obtain ⟨k, heq, -⟩ := hm.flows (Chunk.sane_of_ne (by decide)) hmem
    omega
  unfold Performs perform
  refine .bind_ok hread (.bind_ok (frame_eq rfl) ?_)
  simp only [if_pos hle]
  exact hm.jumps (g := { f with ip := f.ip + 1 + 2 }) hat rfl (by omega) rfl

end Doing

end Machine

end Parlance
