/-
  Runs of accepted functions.
-/
import Parlance.Proofs.Code.Heights
import Parlance.Proofs.Machine.Runs

namespace Parlance

variable {host : Host}

open Heap (idle)

/-! ## What the checks say of a call -/

theorem Constant.verify_of_mem {k : Constant} {ks : List Constant} (h : verifyAll ks = .ok ())
    (hk : k ∈ ks) : k.verify = .ok () := by
  induction ks with
  | nil => cases hk
  | cons k' ks ih =>
    rw [verifyAll] at h
    split at h
    · cases h
    · rename_i hk'
      rcases List.mem_cons.1 hk with rfl | hk
      · exact hk'
      · exact ih h hk

namespace Proto

variable {p : Proto} {o height : Nat} {op : Op}

/-- With so many values on the frame, all that the instruction at `o` reads is there: its bytes, its
constant, which is a string where it names a global, its slot, and the values it takes. A closure
whose function has no sane header reads no captures. -/
structure InRange (p : Proto) (o : Nat) (op : Op) (height : Nat) : Prop where
  code : o + (1 + op.width) ≤ p.code.size
  captures : op = .closure → ∀ q, p.chunk.callee? o = some q → q.Sane →
    o + (2 + 2 * q.upvalueCount.toNat) ≤ p.code.size
  constant : op ∈ [.constant, .getGlobal, .defineGlobal, .setGlobal, .closure] →
    p.chunk.byte (o + 1) < p.constants.length
  name : op ∈ [.getGlobal, .defineGlobal, .setGlobal] → ∃ s, p.constants[p.chunk.byte (o + 1)]? =
    some (.text s)
  slot : op ∈ [.getLocal, .setLocal] → p.chunk.byte (o + 1) < height
  taken : p.chunk.pops op o < height

theorem InRange.of_fits {w : Window} (hf : p.chunk.Fits p.upvalueCount op o w)
    (hcode : o + (1 + op.width) ≤ p.code.size) : p.InRange o op w.height where
  code := hcode
  captures hop q hq hsane := by
    subst hop
    have hin := hf.inside fun _ q' hq' => by
      rw [hq] at hq'
      cases hq'
      exact hsane
    have hcount : p.chunk.captureCount o = q.upvalueCount.toNat := by simp [Chunk.captureCount, hq]
    simp only [Chunk.length, hcount] at hin
    exact hin
  constant hop := by
    have ho := hf.operand
    have hlt : ∀ {k : Constant}, p.chunk.constants[p.chunk.byte (o + 1)]? = some k →
        p.chunk.byte (o + 1) < p.constants.length := fun hk => by
      simpa [chunk] using (Array.getElem?_eq_some_iff.1 hk).1
    cases op with
    | constant => exact hlt ho.choose_spec
    | getGlobal | defineGlobal | setGlobal => exact hlt ho.choose_spec
    | closure =>
      obtain ⟨q, hq⟩ := ho
      exact hlt (Chunk.constants_of_callee? hq)
    | _ => simp at hop
  name hop := by
    have ho := hf.operand
    cases op with
    | getGlobal | defineGlobal | setGlobal =>
      obtain ⟨s, hs⟩ := ho
      exact ⟨s, by simpa [chunk] using hs⟩
    | _ => simp at hop
  slot hop := by
    have ho := hf.operand
    cases op with
    | getLocal | setLocal => exact ho
    | _ => simp at hop
  taken := hf.room

theorem check_of_verify (h : p.verify = .ok ()) : p.check = .ok () := by
  obtain ⟨_, _, _, _, _, _⟩ := p
  rw [verify] at h
  split at h
  · cases h
  · assumption

theorem verify_nested {q : Proto} (h : p.verify = .ok ()) (hq : Constant.function q ∈ p.constants) :
    q.verify = .ok () := by
  obtain ⟨_, _, _, _, _, _⟩ := p
  rw [verify] at h
  split at h
  · cases h
  · have hk := Constant.verify_of_mem h hq
    rwa [Constant.verify] at hk

theorem notes_of_heights (hcheck : p.check = .ok ()) (ha : 0 ≤ p.arity ∧ p.arity ≤ 255) {w : Window}
    (hw : p.heights o = some w) (hop : p.chunk.op? o = some op) : p.Notes o op w.height := by
  obtain ⟨op', behind, hn⟩ := noted_of_heights hcheck ha.1 ha.2 hw
  obtain rfl : op' = op := Option.some.inj (hn.found.op_eq.symm.trans hop)
  exact hn.notes

end Proto

/-- Accepted functions, in the windows that were checked. -/
def Vetting.verified : Vetting where
  strict := False
  good p := p.verify = .ok ()
  native _ := True
  chart := Proto.heights
  nested := Proto.verify_nested
  charted hp ha ha' := Proto.charted_heights (Proto.check_of_verify hp) ha ha'
  lines hp := (Proto.check_spec (Proto.check_of_verify hp)).1
  whole hp ha ha' hw hop := by
    obtain ⟨op', behind, hn⟩ := Proto.noted_of_heights (Proto.check_of_verify hp) ha ha' hw
    obtain rfl := Option.some.inj (hn.found.op_eq.symm.trans hop)
    exact hn.found.whole
  tidy := False.elim

/-- Accepted functions, and natives that the host can be trusted with. They may give up. -/
def Vetting.accepted (host : Host) : Vetting := Vetting.verified.trusting host fun _ _ => True

theorem Vetting.hosts_accepted (host : Host) : (Vetting.accepted host).Hosts host := hosts_trusting ..

/-! ## Calls -/

/-- The calls of `fs`, the innermost first, wait for one whose window begins at slot `limit`. Each
is behind a call instruction that the checks found, and has on its frame what they noted before the
instruction: what lies at `limit` and above are the values that the instruction takes. It will go on
with one value in their place. -/
inductive Heap.Waiting (h : Heap) : (fs : List Frame) → (limit : Nat) → Prop
  | nil {limit : Nat} : Waiting h [] limit
  | cons {f : Frame} {fs : List Frame} {limit o height : Nat} {p : Proto} (runs : h.Runs f.closure p)
      (accepted : p.verify = .ok ()) (ip : f.ip = o + 2) (notes : p.Notes o .call height)
      (range : p.InRange o .call height) (window : limit + p.chunk.pops .call o = f.base + height)
      (next : ∃ op, p.Notes f.ip op (limit - f.base + 1)) (below : Waiting h fs f.base) :
      Waiting h (f :: fs) limit

/-- The running call is at an instruction that the checks found in its function, with as many values
on its frame as they noted there, all that the instruction reads is there, and the calls below wait
as they should. -/
structure Machine.Watched (m : Machine) (p : Proto) (f : Frame) (below : Array Frame) (op : Op)
    (height : Nat) : Prop where
  frames_eq : m.frames = below.push f
  runs : m.heap.Runs f.closure p
  accepted : p.verify = .ok ()
  notes : p.Notes f.ip op height
  depth_eq : m.stack.depth = f.base + height
  range : p.InRange f.ip op height
  waiting : m.heap.Waiting below.toList.reverse f.base

theorem Heap.Calls.waiting {h : Heap} {us : List Ref} {fs : List Frame} {limit : Nat}
    (hc : h.Calls (Vetting.accepted host) us fs limit) : h.Waiting fs limit := by
  induction hc with
  | nil => exact .nil
  | @cons f fs limit o p w runs good arity chart op ip window opened below ih =>
    have hcheck := Proto.check_of_verify good
    have hfits := (Vetting.accepted host).fits good arity chart op
    have hroom := hfits.room
    have hmem : ((o + 2 : Nat) : Int) ∈ p.chunk.targets .call o := by
      simp [Chunk.targets, isJump, Op.falls, Chunk.length, Op.width]
    obtain ⟨n, heq, w', hw', hle⟩ :=
      (Proto.charted_heights hcheck arity.1 arity.2).flows chart op
        (Chunk.sane_of_ne (by decide)) _ hmem
    obtain rfl : o + 2 = n := Int.ofNat.inj heq
    obtain ⟨op', hfits'⟩ := (Proto.charted_heights hcheck arity.1 arity.2).fits hw'
    have hheight : w'.height = limit - f.base + 1 := by
      rw [← hle.1]
      have hpushes : p.chunk.pushes .call o = 1 := rfl
      simp only [Chunk.after]
      omega
    refine .cons runs good ip (Proto.notes_of_heights hcheck arity chart op)
      (.of_fits hfits ((Vetting.accepted host).whole good arity.1 arity.2 chart op))
      window ⟨op', ?_⟩ ih
    rw [ip, ← hheight]
    exact Proto.notes_of_heights hcheck arity hw' hfits'.op_eq

theorem Machine.Placed.watched {m : Machine} (hm : m.Placed (Vetting.accepted host)) :
    ∃ p f below op height, m.Watched p f below op height := by
  obtain ⟨p, f, below, w, hat, hchart, hdepth⟩ := hm
  have hcheck := Proto.check_of_verify hat.good
  obtain ⟨op, hfits⟩ := (Proto.charted_heights hcheck hat.arity.1 hat.arity.2).fits hchart
  exact ⟨p, f, below, op, w.height, hat.frames_eq, hat.runs, hat.good,
    Proto.notes_of_heights hcheck hat.arity hchart hfits.op_eq, hdepth,
    .of_fits hfits ((Vetting.accepted host).whole hat.good hat.arity.1 hat.arity.2 hchart hfits.op_eq),
    hat.calls.waiting⟩

/-! ## Runs -/

/-- Nothing runs on the machine, its closures all wrap accepted functions, and the host can be
trusted with its natives. -/
structure Machine.Trusts (m : Machine) (host : Host) : Prop where
  sound : m.Sound
  frames_eq : m.frames = #[]
  opens_eq : m.openUpvalues = []
  closures : ∀ {x f us}, m.heap.Live x → m.heap.object? x = some (.closure f us) →
    ∃ p, p.verify = .ok () ∧ m.heap.Runs x p
  natives : ∀ {x n}, m.heap.Live x → m.heap.object? x = some (.native n) →
    (Vetting.accepted host).native n

theorem Machine.trusts_iff {m : Machine} : m.Trusts host ↔ m.Ready (Vetting.accepted host) := by
  constructor
  · intro hm
    exact ⟨hm.sound, ⟨hm.natives, hm.closures, False.elim⟩, hm.frames_eq, hm.opens_eq⟩
  · intro hm
    exact ⟨hm.sound, hm.frames_eq, hm.opens_eq, hm.vetted.closure, hm.vetted.native⟩

/-- **Accepted functions run in the windows that were checked.** In every state of a run, the
running call is at an instruction that the checks found, with as many values on its frame as they
noted there, all that the instruction reads is there, and each call below waits behind its call
instruction with what that needs. -/
theorem watched_of_accepted {m m₁ m' : Machine} {host : Host} {file : String} {r : Ref} {p : Proto}
    {turns : Nat}
    (hm : m.Trusts host) (hl : m.heap.Live r) (hlaid : m.heap.LaidOut p r)
    (haccepted : p.verify = .ok ())
    (hbegin : m.begin file r = (.ok (), m₁)) (hrun : (Exec.runFor host turns) m₁ = .ok false m') :
    ∃ p' f below op height, m'.Watched p' f below op height := by
  have hbegun := (Machine.trusts_iff.1 hm).settled_begin file hl hlaid haccepted False.elim
  rw [hbegin] at hbegun
  have hplaced : m₁.Placed (Vetting.accepted host) := hbegun
  have hplaced' : m'.Placed (Vetting.accepted host) :=
    (hplaced.runFor (Vetting.hosts_accepted host) turns).of_run hrun
  exact hplaced'.watched

/-- A script that calls a function. -/
def callingScript : Proto where
  code := #[Op.closure.toByte, 0, Op.call.toByte, 0, Op.pop.toByte, Op.pushNul.toByte,
    Op.return.toByte]
  lines := #[1, 1, 1, 1, 1, 1, 1]
  constants :=
    [.function
      { name := some "f", code := #[Op.pushNul.toByte, Op.return.toByte], lines := #[1, 1] }]

theorem watched_callingScript :
    ∃ r m m₁ m', (Machine.new {}).load callingScript = (r, m) ∧ m.Trusts #[] ∧
    m.begin "" r = (.ok (), m₁) ∧ (Exec.runFor #[] 2) m₁ = .ok false m' ∧ m'.frames.size = 2 ∧
    ∃ p f below op height, m'.Watched p f below op height := by
  have hready := Machine.ready_new (Vetting.accepted #[]) {}
  obtain ⟨hloaded, hl, hlaid⟩ := hready.load (p := callingScript) ⟨trivial, trivial⟩
  generalize hload : (Machine.new {}).load callingScript = loaded at hloaded hl hlaid
  obtain ⟨r, m⟩ := loaded
  have heval :
    (match ((Machine.new {}).load callingScript).2.begin ""
    ((Machine.new {}).load callingScript).1 with
    | (.ok _, m₁) => (match (Exec.runFor #[] 2) m₁ with
      | .ok false m' => m'.frames.size == 2
      | _ => false)
    | _ => false) = true := by decide +kernel
  rw [hload] at heval
  split at heval
  · rename_i m₁ hbegin
    split at heval
    · rename_i m' hrun
      exact ⟨r, m, m₁, m', rfl, Machine.trusts_iff.2 hloaded, hbegin, hrun, eq_of_beq heval,
        watched_of_accepted (Machine.trusts_iff.2 hloaded) hl hlaid rfl hbegin hrun⟩
    · cases heval
  · cases heval

end Parlance
