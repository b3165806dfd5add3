/-
  Code under construction.

  A variable may be captured behind a loop's first instruction, so while a loop is open the windows
  inside it are too narrow: what is captured since comes around with the jump back. It is let in
  when the loop is closed, which no instruction of the loop minds, as the body leaves the values
  below it alone.
-/
import Parlance.Proofs.Code.Acceptance

namespace Parlance

/-! ## Instructions of a chunk that grows -/

/-- The instruction at `o` reads the same in both chunks. -/
structure Chunk.Same (c c' : Chunk Constant) (op : Op) (o : Nat) : Prop where
  code : ∀ i, o ≤ i → i < o + c.length op o → c'.code[i]? = c.code[i]?
  constants : ∀ (i : Nat) k, c.constants[i]? = some k → c'.constants[i]? = some k

namespace Chunk

variable {c c' : Chunk Constant} {upvalueCount : Int} {op : Op} {o : Nat} {w : Window}

theorem two_le_length (h : op.width ≠ 0) : 2 ≤ c.length op o := by
  unfold length; split <;> omega

theorem length_of_isJump (h : isJump op) : c.length op o = 3 := by
  cases op <;> first | rfl | cases h

theorem pops_of_isJump (h : isJump op) (c c' : Chunk Constant) : c.pops op o = c'.pops op o := by
  cases op <;> first | rfl | cases h

theorem Fits.of_isJump (h : c.Fits upvalueCount op o w) (hj : isJump op) (hop : c'.op? o = some op)
    (hin : o + 3 ≤ c'.code.size) : c'.Fits upvalueCount op o w where
  op_eq := hop
  room := by rw [pops_of_isJump hj c' c]; exact h.room
  operand := by cases op <;> first | exact trivial | cases hj
  inside _ := by rw [c'.length_of_isJump hj]; exact hin
  captures _ hop := by subst hop; cases hj

theorem Tidy.of_isJump (h : c.Tidy op o w) (hj : isJump op) : c'.Tidy op o w where
  sane hop := by subst hop; cases hj
  closed := by rw [pops_of_isJump hj c' c]; exact h.closed
  kinds hop := by subst hop; cases hj

theorem Fits.of_height {w' : Window} (h : c.Fits upvalueCount op o w) (hw : w.height = w'.height) :
    c.Fits upvalueCount op o w' :=
  ⟨h.op_eq, hw ▸ h.room, hw ▸ h.operand, h.inside, fun hs hop => hw ▸ h.captures hs hop⟩

namespace Same

theorem refl (c : Chunk Constant) (op : Op) (o : Nat) : c.Same c op o :=
  ⟨fun _ _ _ => rfl, fun _ _ h => h⟩

theorem byte (h : c.Same c' op o) {i : Nat} (hi : o ≤ i) (hi' : i < o + c.length op o) :
    c'.byte i = c.byte i := by
  simp [Chunk.byte, h.code i hi hi']

theorem operand (h : c.Same c' op o) (hw : op.width ≠ 0) : c'.byte (o + 1) = c.byte (o + 1) :=
  have := c.two_le_length (o := o) hw
  h.byte (by omega) (by omega)

theorem op?_eq (h : c.Same c' op o) : c'.op? o = c.op? o := by
  have := c.length_pos op o
  simp [Chunk.op?, h.code o (Nat.le_refl o) (by omega)]

theorem callee?_eq {q : Proto} (h : c.Same c' .closure o) (hq : c.callee? o = some q) :
    c'.callee? o = some q := by
  have hk := h.constants _ _ (constants_of_callee? hq)
  simp [callee?, h.operand (by decide), hk]

theorem captureCount_eq {q : Proto} (h : c.Same c' .closure o) (hq : c.callee? o = some q) :
    c'.captureCount o = c.captureCount o := by
  simp [captureCount, h.callee?_eq hq, hq]

theorem length_eq (h : c.Same c' op o) (hf : c.Fits upvalueCount op o w) :
    c'.length op o = c.length op o := by
  cases op with
  | closure =>
    obtain ⟨q, hq⟩ := hf.operand
    simp [length, h.captureCount_eq hq]
  | _ => rfl

theorem pops_eq (h : c.Same c' op o) : c'.pops op o = c.pops op o := by
  cases op with
  | print | call => simp [pops, stackEffect, h.operand (by decide)]
  | _ => rfl

theorem pushes_eq (c c' : Chunk Constant) (op : Op) (o : Nat) : c'.pushes op o = c.pushes op o := by
  cases op <;> rfl

theorem pair (h : c.Same c' .closure o) {j : Nat} (hj : j < c.captureCount o) :
    c'.byte (o + 2 + 2 * j) = c.byte (o + 2 + 2 * j) ∧
      c'.byte (o + 3 + 2 * j) = c.byte (o + 3 + 2 * j) := by
  have hl : c.length .closure o = 2 + 2 * c.captureCount o := rfl
  exact ⟨h.byte (by omega) (by omega), h.byte (by omega) (by omega)⟩

section

variable (h : c.Same c' op o) (hf : c.Fits upvalueCount op o w)
include h hf

theorem after_eq : c'.after op o w = c.after op o w := by
  simp only [after, h.pops_eq, pushes_eq c c', Window.mk.injEq, true_and]
  funext i
  refine propext (or_congr Iff.rfl (and_congr_right ?_))
  rintro rfl
  obtain ⟨q, hq⟩ := hf.operand
  simp only [CapturesSlot, h.captureCount_eq hq]
  refine exists_congr fun j => and_congr_right fun hj => ?_
  rw [(h.pair hj).1, (h.pair hj).2]

theorem sane (hs : c.Sane op o) : c'.Sane op o := by
  rintro rfl q hq
  obtain ⟨q', hq'⟩ := hf.operand
  rw [h.callee?_eq hq'] at hq
  exact hs rfl q (hq'.trans hq)

theorem fits {upvalueCount' : Int}
    (hs : c.Sane op o) (hsize : c.code.size ≤ c'.code.size) (hup : upvalueCount ≤ upvalueCount') :
    c'.Fits upvalueCount' op o w where
  op_eq := h.op?_eq.trans hf.op_eq
  room := by rw [h.pops_eq]; exact hf.room
  operand := by
    have ho := hf.operand
    cases op with
    | constant =>
      obtain ⟨k, hk⟩ := ho
      exact ⟨k, by rw [h.operand (by decide)]; exact h.constants _ _ hk⟩
    | getGlobal | defineGlobal | setGlobal =>
      obtain ⟨s, hk⟩ := ho
      exact ⟨s, by rw [h.operand (by decide)]; exact h.constants _ _ hk⟩
    | getUpvalue | setUpvalue =>
      simp only [OperandFits, h.operand (by decide)] at ho ⊢
      omega
    | getLocal | setLocal =>
      simp only [OperandFits, h.operand (by decide)] at ho ⊢
      exact ho
    | closure => obtain ⟨q, hq⟩ := ho; exact ⟨q, h.callee?_eq hq⟩
    | _ => exact trivial
  inside _ := by
    have := hf.inside hs
    rw [h.length_eq hf]
    omega
  captures _ hop := by
    subst hop
    obtain ⟨q, hq⟩ := hf.operand
    intro j hj
    rw [h.captureCount_eq hq] at hj
    rw [(h.pair hj).1, (h.pair hj).2]
    obtain ⟨h0, h1⟩ := hf.captures hs rfl j hj
    exact ⟨fun hk => by have := h0 hk; omega, h1⟩

theorem tidy (ht : c.Tidy op o w) : c'.Tidy op o w where
  sane := h.sane hf ht.sane
  closed := by rw [h.pops_eq]; exact ht.closed
  kinds hop := by
    subst hop
    obtain ⟨q, hq⟩ := hf.operand
    intro j hj
    rw [h.captureCount_eq hq] at hj
    rw [(h.pair hj).1]
    exact ht.kinds rfl j hj

end

theorem jumpTarget_eq (h : c.Same c' op o) (hj : isJump op) :
    c'.jumpTarget op o = c.jumpTarget op o := by
  have hl := c.length_of_isJump (o := o) hj
  have hshort : c'.short? (o + 1) = c.short? (o + 1) := by
    simp [short?, h.code (o + 1) (by omega) (by omega), h.code (o + 1 + 1) (by omega) (by omega)]
  simp [jumpTarget, hshort]

end Same

end Chunk

/-! ## Sketches -/

/-- A loop that is not closed yet. -/
structure Loop where
  start : Nat
  /-- The number of values that its body leaves alone. -/
  height : Nat
  /-- The instructions from where it may go on. -/
  entries : List Nat

/-- A jump that is not aimed yet. -/
structure Jump where
  /-- Where its distance stands. -/
  place : Nat
  /-- The number of values that it leaves on the frame. -/
  height : Nat
  /-- The number of values that it leaves alone. -/
  below : Nat

/-- Code so far. -/
structure Sketch where
  chunk : Chunk Constant
  upvalues : Nat
  arity : Nat
  /-- The slots whose variable is known to be captured. -/
  flagged : Nat → Prop
  pending : List Jump
  /-- The innermost first. -/
  loops : List Loop
  /-- The number of values at the end of the code. -/
  height : Nat

namespace Sketch

variable {pending : List Jump} {r : Loop}

variable (k : Sketch) (t : Chart)

def size : Nat := k.chunk.code.size

/-- Any of the captured variables may be open below the given height. -/
def wide (height : Nat) : Window := ⟨height, fun i => i < height ∧ k.flagged i⟩

/-- What a pending jump brings along. -/
def brought (x : Jump) : Window := ⟨x.height, fun i => i < x.below ∧ k.flagged i⟩

/-- The window at an offset, or at the end of the code. -/
def look (d : Nat) : Option Window := if d = k.size then some (k.wide k.height) else t d

/-- The variable in slot `i` may come around an open loop. -/
def Around (o d i : Nat) : Prop :=
  k.flagged i ∧ ∃ r ∈ k.loops, r.start ≤ o ∧ r.start ≤ d ∧ i < r.height

/-- Control goes from `o` to `d` with the window `v`, out of no open loop. -/
def Goes (o d : Nat) (v : Window) : Prop :=
  (∃ u, k.look t d = some u ∧ v.height = u.height ∧ ∀ i, v.opened i → u.opened i ∨ k.Around o d i) ∧
    ∀ r ∈ k.loops, r.start ≤ o → r.start ≤ d

/-- The jump at `o` is not aimed yet. -/
def Awaits (o : Nat) : Prop := ∃ x ∈ k.pending, x.place = o + 1

/-- What a draft has to show of one instruction. -/
structure Step (o : Nat) (w : Window) (op : Op) : Prop where
  fits : k.chunk.Fits k.upvalues op o w
  tidy : k.chunk.Tidy op o w
  low : w.height ≤ 512 + o
  floor : ∀ r ∈ k.loops, r.start ≤ o → r.height + k.chunk.pops op o ≤ w.height
  next : o + k.chunk.length op o = k.size ∨ (t (o + k.chunk.length op o)).isSome
  falls : op.falls → k.Goes t o (o + k.chunk.length op o) (k.chunk.after op o w)
  jumps : isJump op →
    k.Awaits o ∨ ∃ d : Nat, k.chunk.jumpTarget op o = d ∧ k.Goes t o d (k.chunk.after op o w)

/-- The code so far has the chart `t`. -/
structure Draft : Prop where
  lines_eq : k.chunk.lines.size = k.size
  pool : k.chunk.constants.size ≤ maxConstants
  nested : ∀ q, Constant.function q ∈ k.chunk.constants → q.Sound ∧ q.Sane
  low : k.height ≤ 512 + k.size
  step : ∀ {o w}, t o = some w → ∃ op, k.Step t o w op
  apart : ∀ {o w o' op}, t o = some w → k.chunk.op? o = some op → (t o').isSome → o < o' →
    o + k.chunk.length op o ≤ o'
  entry : ∃ u, k.look t 0 = some u ∧ u.height = 1 + k.arity
  waits : ∀ x ∈ k.pending, x.below ≤ x.height ∧ ∃ o w op, x.place = o + 1 ∧ t o = some w ∧
    k.chunk.op? o = some op ∧ (op = .jump ∨ op = .jumpIfFalse) ∧ k.chunk.after op o w ≤ k.brought x
  entries : ∀ r ∈ k.loops, ∀ d ∈ r.entries,
    r.start ≤ d ∧ ∃ u, k.look t d = some u ∧ u.height = r.height
  held : ∀ r ∈ k.loops, ∀ x ∈ k.pending, x.place ≤ r.start ∨ r.height ≤ x.below
  starts : ∀ r ∈ k.loops, r.start ≤ k.size
  sorted : k.loops.Pairwise fun r r' => r'.start ≤ r.start ∧ r'.height ≤ r.height

variable {k} {k' : Sketch} {t} {t' : Chart}

/-- What holds of an instruction in one draft holds of it in another where it reads the same, and
from where control comes to the same places. -/
theorem Step.same {o : Nat} {w : Window} {op : Op} (h : k.Step t o w op)
    (hsame : k.chunk.Same k'.chunk op o) (hsize : k.size ≤ k'.size) (hup : k.upvalues ≤ k'.upvalues)
    (hloops : ∀ r ∈ k'.loops, r.start ≤ o → ∃ r' ∈ k.loops, r'.start = r.start ∧ r'.height = r.height)
    (hnext : ∀ d, d = k.size ∨ (t d).isSome → d = k'.size ∨ (t' d).isSome)
    (hgoes : ∀ d v, k.Goes t o d v → k'.Goes t' o d v)
    (hawaits : k.Awaits o → k'.Awaits o) : k'.Step t' o w op where
  fits := hsame.fits h.fits h.tidy.sane hsize (by omega)
  tidy := hsame.tidy h.fits h.tidy
  low := h.low
  floor r hr ho := by
    obtain ⟨r', hr', hstart, hheight⟩ := hloops r hr ho
    rw [hsame.pops_eq, ← hheight]
    exact h.floor r' hr' (hstart ▸ ho)
  next := by rw [hsame.length_eq h.fits]; exact hnext _ h.next
  falls hf := by
    rw [hsame.length_eq h.fits, hsame.after_eq h.fits]
    exact hgoes _ _ (h.falls hf)
  jumps hj := by
    rw [hsame.jumpTarget_eq hj, hsame.after_eq h.fits]
    rcases h.jumps hj with ha | ⟨d, hd, hg⟩
    · exact .inl (hawaits ha)
    · exact .inr ⟨d, hd, hgoes _ _ hg⟩

namespace Draft

section

variable (h : k.Draft t)
include h

theorem step_op {o : Nat} {w : Window} {op : Op} (hw : t o = some w)
    (hop : k.chunk.op? o = some op) : k.Step t o w op := by
  obtain ⟨op', hs⟩ := h.step hw
  obtain rfl : op' = op := Option.some.inj (hs.fits.op_eq.symm.trans hop)
  exact hs

theorem lt_size {o : Nat} (ho : (t o).isSome) : o < k.size := by
  obtain ⟨w, hw⟩ := Option.isSome_iff_exists.1 ho
  obtain ⟨op, hs⟩ := h.step hw
  exact hs.fits.lt_size

theorem inside {o : Nat} {w : Window} {op : Op} (hw : t o = some w)
    (hop : k.chunk.op? o = some op) : o + k.chunk.length op o ≤ k.size :=
  have hs := h.step_op hw hop
  hs.fits.inside hs.tidy.sane

theorem look_le_size {d : Nat} {u : Window} (hu : k.look t d = some u) : d ≤ k.size := by
  unfold look at hu
  split at hu
  · omega
  · exact Nat.le_of_lt (h.lt_size (by simp [hu]))

/-- Where the same heights are expected everywhere, they are so at the entry and where loops go
on. -/
theorem entry_of (hlook : ∀ {d u}, k.look t d = some u → ∃ u', k'.look t' d = some u' ∧
      u.height = u'.height) :
    ∃ u, k'.look t' 0 = some u ∧ u.height = 1 + k.arity := by
  obtain ⟨u, hu, hheight⟩ := h.entry
  obtain ⟨u', hu', heq⟩ := hlook hu
  exact ⟨u', hu', heq ▸ hheight⟩

theorem entries_of (hlook : ∀ {d u}, k.look t d = some u → ∃ u', k'.look t' d = some u' ∧
      u.height = u'.height)
    (hr : r ∈ k.loops) {d : Nat} (hd : d ∈ r.entries) :
    r.start ≤ d ∧ ∃ u, k'.look t' d = some u ∧ u.height = r.height := by
  obtain ⟨hle, u, hu, hheight⟩ := h.entries r hr d hd
  obtain ⟨u', hu', heq⟩ := hlook hu
  exact ⟨hle, u', hu', heq ▸ hheight⟩

/-! ### Growth -/

theorem grow {flagged : Nat → Prop} {upvalues : Nat} {constants : Array Constant}
    (hflag : ∀ i, k.flagged i → flagged i) (hup : k.upvalues ≤ upvalues)
    (hconst : ∀ (i : Nat) x, k.chunk.constants[i]? = some x → constants[i]? = some x)
    (hpool : constants.size ≤ maxConstants)
    (hnested : ∀ q, Constant.function q ∈ constants → q.Sound ∧ q.Sane) :
    Draft { k with flagged, upvalues, chunk := { k.chunk with constants } } t := by
  have hsame : ∀ op o, k.chunk.Same { k.chunk with constants } op o :=
    fun op o => ⟨fun _ _ _ => rfl, hconst⟩
  have hlook : ∀ {d u}, k.look t d = some u → ∃ u',
      look { k with flagged, upvalues, chunk := { k.chunk with constants } } t d = some u' ∧
      u ≤ u' := by
    intro d u hu
    unfold look at hu ⊢
    split at hu
    · rename_i hd
      obtain rfl := Option.some.inj hu
      exact ⟨_, if_pos hd, rfl, fun i hi => ⟨hi.1, hflag i hi.2⟩⟩
    · rename_i hd
      exact ⟨u, (if_neg hd).trans hu, u.le_refl⟩
  refine { h with
    pool := hpool
    nested := hnested
    step := ?step
    apart := ?apart
    entry := h.entry_of fun hu => (hlook hu).imp fun _ hu' => ⟨hu'.1, hu'.2.1⟩
    waits := ?waits
    entries := fun r hr d => h.entries_of (fun hu => (hlook hu).imp fun _ hu' => ⟨hu'.1, hu'.2.1⟩) hr }
  case step =>
    intro o w hw
    obtain ⟨op, hs⟩ := h.step hw
    refine ⟨op, hs.same (hsame op o) (Nat.le_refl _) hup (fun r hr _ => ⟨r, hr, rfl, rfl⟩)
      (fun d hd => hd) ?_ id⟩
    rintro d v ⟨⟨u, hu, hheight, hopen⟩, hin⟩
    obtain ⟨u', hu', hle⟩ := hlook hu
    refine ⟨⟨u', hu', hheight.trans hle.1, fun i hi => ?_⟩, hin⟩
    rcases hopen i hi with hi | ⟨hf, hr⟩
    · exact .inl (hle.2 i hi)
    · exact .inr ⟨hflag i hf, hr⟩
  case apart =>
    intro o w o' op hw hop ho' hlt
    have hs := h.step_op hw ((hsame op o).op?_eq ▸ hop)
    rw [(hsame op o).length_eq hs.fits]
    exact h.apart hw hs.fits.op_eq ho' hlt
  case waits =>
    intro x hx
    obtain ⟨hbelow, o, w, op, ho, hw, hop, hj, hle⟩ := h.waits x hx
    have hs := h.step_op hw hop
    refine ⟨hbelow, o, w, op, ho, hw, (hsame op o).op?_eq.trans hop, hj, ?_⟩
    rw [(hsame op o).after_eq hs.fits]
    exact Window.le_trans hle ⟨rfl, fun i hi => ⟨hi.1, hflag i hi.2⟩⟩

/-- Only which jumps are pending matters, not their order. -/
theorem congr_pending
    (hp : ∀ x, x ∈ pending ↔ x ∈ k.pending) : Draft { k with pending } t := by
  refine { h with step := ?_, waits := fun x hx => h.waits x ((hp x).1 hx), held := ?_ }
  · intro o w hw
    obtain ⟨op, hs⟩ := h.step hw
    refine ⟨op, hs.same (.refl _ op o) (Nat.le_refl _) (Nat.le_refl _)
      (fun r hr _ => ⟨r, hr, rfl, rfl⟩) (fun _ hd => hd) (fun _ _ hg => hg) ?_⟩
    rintro ⟨x, hx, ho⟩
    exact ⟨x, (hp x).2 hx, ho⟩
  · exact fun r hr x hx => h.held r hr x ((hp x).1 hx)

/-- Which variables are captured matters only where a value may be open. -/
theorem congr_flagged {flagged : Nat → Prop} {m : Nat}
    (hflag : ∀ i < m, k.flagged i ↔ flagged i) (hheight : k.height ≤ m)
    (hpending : ∀ x ∈ k.pending, x.below ≤ m) (hloops : ∀ r ∈ k.loops, r.height ≤ m) :
    Draft { k with flagged } t := by
  have hwide : wide { k with flagged } k.height = k.wide k.height := by
    simp only [wide, Window.mk.injEq, true_and]
    funext i
    exact propext (and_congr_right fun hi => (hflag i (Nat.lt_of_lt_of_le hi hheight)).symm)
  have hlook : ∀ d, look { k with flagged } t d = k.look t d := fun d =>
    congrArg (fun w => if d = k.size then some w else t d) hwide
  refine { h with step := ?_, entry := ?_, waits := ?_, entries := ?_ }
  · intro o w hw
    obtain ⟨op, hs⟩ := h.step hw
    refine ⟨op, hs.same (.refl _ op o) (Nat.le_refl _) (Nat.le_refl _)
      (fun r hr _ => ⟨r, hr, rfl, rfl⟩) (fun _ hd => hd) ?_ id⟩
    rintro d v ⟨⟨u, hu, hv, hopen⟩, hin⟩
    refine ⟨⟨u, (hlook d).trans hu, hv, fun i hi => (hopen i hi).imp id ?_⟩, hin⟩
    rintro ⟨hf, r, hr, hro, hrd, hi⟩
    exact ⟨(hflag i (Nat.lt_of_lt_of_le hi (hloops r hr))).1 hf, r, hr, hro, hrd, hi⟩
  · rw [hlook]
    exact h.entry
  · intro x hx
    obtain ⟨hbelow, o, w, op, ho, hw, hop, hj, hle⟩ := h.waits x hx
    refine ⟨hbelow, o, w, op, ho, hw, hop, hj, hle.1, fun i hi => ?_⟩
    obtain ⟨hi, hf⟩ := hle.2 i hi
    exact ⟨hi, (hflag i (Nat.lt_of_lt_of_le hi (hpending x hx))).1 hf⟩
  · intro r hr d hd
    rw [hlook]
    exact h.entries r hr d hd

/-! ### One more instruction -/

/-- An instruction at the end of the code finds the window of the end, and leaves the one behind
it. -/
theorem append {chunk : Chunk Constant} {op : Op}
    {height : Nat} (hcode : ∀ i < k.size, chunk.code[i]? = k.chunk.code[i]?)
    (hconst : chunk.constants = k.chunk.constants)
    (hsize : chunk.code.size = k.size + chunk.length op k.size)
    (hlines : chunk.lines.size = chunk.code.size)
    (hfits : chunk.Fits k.upvalues op k.size (k.wide k.height))
    (htidy : chunk.Tidy op k.size (k.wide k.height))
    (hfloor : ∀ r ∈ k.loops, r.height + chunk.pops op k.size ≤ k.height)
    (hlow : height ≤ 512 + chunk.code.size)
    (hfalls : op.falls → chunk.after op k.size (k.wide k.height) ≤ k.wide height)
    (hkept : ∀ x ∈ k.pending, x ∈ pending)
    (hnew : ∀ x ∈ pending, x ∈ k.pending ∨ x = ⟨k.size + 1, k.height - chunk.pops op k.size +
      chunk.pushes op k.size, k.height - chunk.pops op k.size⟩ ∧ (op = .jump ∨ op = .jumpIfFalse))
    (hjumps : isJump op → (∃ x ∈ pending, x.place = k.size + 1) ∨
      ∃ d : Nat, chunk.jumpTarget op k.size = d ∧
        k.Goes t k.size d (chunk.after op k.size (k.wide k.height))) :
    Draft { k with chunk, pending, height }
    (fun i => if i = k.size then some (k.wide k.height) else t i) := by
  have hpos := chunk.length_pos op k.size
  have hlt : k.size < chunk.code.size := by omega
  have hlook : ∀ {d u}, k.look t d = some u → look { k with chunk, pending, height }
      (fun i => if i = k.size then some (k.wide k.height) else t i) d = some u := by
    intro d u hu
    have hd := h.look_le_size hu
    unfold look at hu ⊢
    exact (if_neg (show d ≠ chunk.code.size by omega)).trans hu
  have hgoes : ∀ {o d v}, k.Goes t o d v → Goes { k with chunk, pending, height }
      (fun i => if i = k.size then some (k.wide k.height) else t i) o d v := by
    rintro o d v ⟨⟨u, hu, hv⟩, hin⟩
    exact ⟨⟨u, hlook hu, hv⟩, hin⟩
  have hsame : ∀ {o w op}, t o = some w → k.chunk.op? o = some op → k.chunk.Same chunk op o :=
    fun hw hop =>
      ⟨fun i _ hi => hcode i (by have := h.inside hw hop; omega), fun i x hx => hconst ▸ hx⟩
  refine { h with
    lines_eq := hlines
    pool := hconst ▸ h.pool
    nested := hconst ▸ h.nested
    low := hlow
    step := ?step
    apart := ?apart
    entry := h.entry_of fun hu => ⟨_, hlook hu, rfl⟩
    waits := ?waits
    entries := fun r hr d => h.entries_of (fun hu => ⟨_, hlook hu, rfl⟩) hr
    held := ?held
    starts := fun r hr => Nat.le_of_lt (Nat.lt_of_le_of_lt (h.starts r hr) hlt) }
  case step =>
    intro o w hw
    split at hw
    · rename_i ho
      subst ho
      obtain rfl := Option.some.inj hw
      refine ⟨op, hfits, htidy, h.low, fun r hr _ => hfloor r hr, .inl hsize.symm, ?_, ?_⟩
      · intro hf
        refine ⟨⟨k.wide height, if_pos hsize.symm, (hfalls hf).1,
          fun i hi => .inl ((hfalls hf).2 i hi)⟩, fun r _ hr => by omega⟩
      · exact fun hj => (hjumps hj).imp id fun hd => hd.imp fun d hd => ⟨hd.1, hgoes hd.2⟩
    · obtain ⟨op', hs⟩ := h.step hw
      refine ⟨op', hs.same (hsame hw hs.fits.op_eq) (Nat.le_of_lt hlt) (Nat.le_refl _)
        (fun r hr _ => ⟨r, hr, rfl, rfl⟩) ?_ (fun d v => hgoes) fun hx => hx.imp fun x hx =>
        ⟨hkept x hx.1, hx.2⟩⟩
      rintro d (rfl | hd)
      · exact .inr (by simp)
      · right
        split
        · rfl
        · exact hd
  case apart =>
    intro o w o' op' hw hop ho' hoo'
    have hle : o' ≤ k.size := by
      split at ho'
      · omega
      · exact Nat.le_of_lt (h.lt_size ho')
    split at hw
    · omega
    · have hop' : k.chunk.op? o = some op' := by
        obtain ⟨op'', hs⟩ := h.step hw
        rw [← (hsame hw hs.fits.op_eq).op?_eq]
        exact hop
      have hlen := (hsame hw hop').length_eq (h.step_op hw hop').fits
      rw [hlen]
      split at ho'
      · have := h.inside hw hop'
        omega
      · exact h.apart hw hop' ho' hoo'
  case waits =>
    intro x hx
    rcases hnew x hx with hx | ⟨rfl, hj⟩
    · obtain ⟨hbelow, o, w, op', ho, hw, hop, hj, hle⟩ := h.waits x hx
      have hne : o ≠ k.size := by
        have := h.lt_size (o := o) (by simp [hw])
        omega
      refine ⟨hbelow, o, w, op', ho, (if_neg hne).trans hw, (hsame hw hop).op?_eq.trans hop, hj, ?_⟩
      rw [(hsame hw hop).after_eq (h.step_op hw hop).fits]
      exact hle
    · refine ⟨Nat.le_add_right _ _, k.size, _, op, rfl, if_pos rfl, hfits.op_eq, hj, rfl, ?_⟩
      rintro i (⟨hi, ho⟩ | ⟨hc, -⟩)
      · exact ⟨hi, ho.2⟩
      · rcases hj with rfl | rfl <;> cases hc
  case held =>
    intro r hr x hx
    rcases hnew x hx with hx | ⟨rfl, -⟩
    · exact h.held r hr x hx
    · have := hfloor r hr
      right
      show _ ≤ k.height - chunk.pops op k.size
      omega

/-! ### Jumps that are aimed -/

theorem patch {x : Jump} {code : Array UInt8}
    (hx : x ∈ k.pending) (hheight : x.height = k.height) (hsize : code.size = k.size)
    (hcode : ∀ i, i ≠ x.place → i ≠ x.place + 1 → code[i]? = k.chunk.code[i]?)
    (hshort : Chunk.short? { k.chunk with code } x.place = some (k.size - x.place - 2))
    (hkept : ∀ y ∈ k.pending, y = x ∨ y ∈ pending) (hsub : ∀ y ∈ pending, y ∈ k.pending) :
    Draft { k with chunk := { k.chunk with code }, pending } t := by
  have hlook : ∀ d, look { k with chunk := { k.chunk with code }, pending } t d = k.look t d := by
    intro d
    unfold look size
    simp only [hsize]
    rfl
  have hgoes : ∀ {o d v}, k.Goes t o d v →
      Goes { k with chunk := { k.chunk with code }, pending } t o d v := by
    rintro o d v ⟨⟨u, hu, hv⟩, hin⟩
    exact ⟨⟨u, (hlook d).trans hu, hv⟩, hin⟩
  obtain ⟨hbelow, o1, w1, op1, ho1, hw1, hop1, hj1, hle1⟩ := h.waits x hx
  have hlen1 : ∀ c : Chunk Constant, c.length op1 o1 = 3 := by
    rcases hj1 with rfl | rfl <;> exact fun _ => rfl
  have hin1 := h.inside hw1 hop1
  rw [hlen1] at hin1
  -- the instructions lie apart, so the others keep their bytes
  have hsame : ∀ {o w op}, t o = some w → k.chunk.op? o = some op → o ≠ o1 →
      k.chunk.Same { k.chunk with code } op o := by
    intro o w op hw hop hne
    refine ⟨fun i hi hi' => hcode i ?_ ?_, fun _ _ h => h⟩
    all_goals
      rcases Nat.lt_or_gt_of_ne hne with hlt | hlt
      · have := h.apart hw hop (by simp [hw1]) hlt
        omega
      · have := h.apart hw1 hop1 (by simp [hw]) hlt
        rw [hlen1] at this
        omega
  have hop?₁ : Chunk.op? { k.chunk with code } o1 = some op1 := by
    rw [← hop1]
    simp [Chunk.op?, hcode o1 (by omega) (by omega)]
  have hop? : ∀ {o w}, t o = some w → Chunk.op? { k.chunk with code } o = k.chunk.op? o := by
    intro o w hw
    by_cases hne : o = o1
    · subst hne
      exact hop?₁.trans hop1.symm
    · obtain ⟨op, hs⟩ := h.step hw
      exact (hsame hw hs.fits.op_eq hne).op?_eq
  have hafter : ∀ {o w op}, t o = some w → k.chunk.op? o = some op →
      Chunk.after { k.chunk with code } op o w = k.chunk.after op o w := by
    intro o w op hw hop
    by_cases hne : o = o1
    · subst hne
      obtain rfl : op1 = op := Option.some.inj (hop1.symm.trans hop)
      rcases hj1 with rfl | rfl <;> simp [Chunk.after, Chunk.pops, Chunk.pushes, stackEffect]
    · exact (hsame hw hop hne).after_eq (h.step_op hw hop).fits
  refine { h with
    lines_eq := h.lines_eq.trans hsize.symm
    low := Nat.le_trans h.low (Nat.add_le_add_left (Nat.le_of_eq hsize.symm) _)
    step := ?step
    apart := ?apart
    entry := h.entry_of fun hu => ⟨_, (hlook _).trans hu, rfl⟩
    waits := ?waits
    entries := fun r hr d => h.entries_of (fun hu => ⟨_, (hlook _).trans hu, rfl⟩) hr
    held := fun r hr y hy => h.held r hr y (hsub y hy)
    starts := fun r hr => Nat.le_trans (h.starts r hr) (Nat.le_of_eq hsize.symm) }
  case step =>
    intro o w hw
    obtain ⟨op, hs⟩ := h.step hw
    by_cases hne : o = o1
    · subst hne
      obtain rfl : op1 = op := Option.some.inj (hop1.symm.trans hs.fits.op_eq)
      obtain rfl := Option.some.inj (hw.symm.trans hw1)
      have hj : isJump op1 := by rcases hj1 with rfl | rfl <;> rfl
      have hnext := hs.next
      have hfalls := hs.falls
      rw [hlen1] at hnext hfalls
      refine ⟨op1, hs.fits.of_isJump hj hop?₁ (by simp only [hsize]; exact hin1),
        hs.tidy.of_isJump hj, hs.low, ?_, ?_, ?_, fun _ => .inr ⟨k.size, ?_, ?_⟩⟩
      · rw [Chunk.pops_of_isJump hj _ k.chunk]
        exact hs.floor
      · rw [hlen1]
        exact hnext.imp (fun he => he.trans hsize.symm) id
      · rw [hlen1, hafter hw hop1]
        exact fun hf => hgoes (hfalls hf)
      · rw [ho1] at hshort
        rcases hj1 with rfl | rfl <;> simp only [Chunk.jumpTarget, hshort, Option.getD_some] <;> omega
      · rw [hafter hw hop1]
        refine ⟨⟨k.wide k.height, (hlook _).trans (if_pos rfl), ?_, fun i hi => .inl ?_⟩,
          fun r hr _ => h.starts r hr⟩
        · exact hle1.1.trans hheight
        · obtain ⟨hi, hf⟩ := hle1.2 i hi
          exact ⟨Nat.lt_of_lt_of_le hi (hheight ▸ hbelow), hf⟩
    · refine ⟨op, hs.same (hsame hw hs.fits.op_eq hne) (Nat.le_of_eq hsize.symm) (Nat.le_refl _)
        (fun r hr _ => ⟨r, hr, rfl, rfl⟩) (fun d hd => hd.imp (fun he => he.trans hsize.symm) id)
        (fun d v => hgoes) ?_⟩
      rintro ⟨y, hy, hyo⟩
      refine ⟨y, (hkept y hy).resolve_left ?_, hyo⟩
      rintro rfl
      omega
  case apart =>
    intro o w o' op hw hop ho' hlt
    rw [hop? hw] at hop
    have hlen : Chunk.length { k.chunk with code } op o = k.chunk.length op o := by
      by_cases hne : o = o1
      · subst hne
        obtain rfl : op1 = op := Option.some.inj (hop1.symm.trans hop)
        rw [hlen1, hlen1]
      · exact (hsame hw hop hne).length_eq (h.step_op hw hop).fits
    rw [hlen]
    exact h.apart hw hop ho' hlt
  case waits =>
    intro y hy
    obtain ⟨hbelow, o, w, op, ho, hw, hop, hj, hle⟩ := h.waits y (hsub y hy)
    exact ⟨hbelow, o, w, op, ho, hw, (hop? hw).trans hop, hj, (hafter hw hop).symm ▸ hle⟩

/-! ### Loops -/

theorem openLoop (hloops : ∀ r ∈ k.loops, r.height ≤ k.height) :
    Draft { k with loops := ⟨k.size, k.height, [k.size]⟩ :: k.loops } t := by
  refine { h with
    step := ?step
    entries := ?entries
    held := ?held
    starts := List.forall_mem_cons.2 ⟨Nat.le_refl _, h.starts⟩
    sorted := h.sorted.cons fun r hr => ⟨h.starts r hr, hloops r hr⟩ }
  case step =>
    intro o w hw
    obtain ⟨op, hs⟩ := h.step hw
    have ho := h.lt_size (o := o) (by simp [hw])
    refine ⟨op, hs.same (.refl _ op o) (Nat.le_refl _) (Nat.le_refl _) ?_ (fun _ hd => hd) ?_ id⟩
    · intro r hr hro
      rcases List.mem_cons.1 hr with rfl | hr
      · exact absurd hro (Nat.not_le.2 ho)
      · exact ⟨r, hr, rfl, rfl⟩
    · rintro d v ⟨⟨u, hu, hheight, hopen⟩, hin⟩
      refine ⟨⟨u, hu, hheight, fun i hi => (hopen i hi).imp id ?_⟩, fun r hr hro => ?_⟩
      · rintro ⟨hf, r, hr, hro⟩
        exact ⟨hf, r, List.mem_cons_of_mem _ hr, hro⟩
      · rcases List.mem_cons.1 hr with rfl | hr
        · exact absurd hro (Nat.not_le.2 ho)
        · exact hin r hr hro
  case entries =>
    intro r hr d hd
    rcases List.mem_cons.1 hr with rfl | hr
    · obtain rfl := List.mem_singleton.1 hd
      exact ⟨Nat.le_refl _, _, if_pos rfl, rfl⟩
    · exact h.entries r hr d hd
  case held =>
    intro r hr x hx
    rcases List.mem_cons.1 hr with rfl | hr
    · obtain ⟨-, o, w, op, ho, hw, -⟩ := h.waits x hx
      exact .inl (ho ▸ h.lt_size (o := o) (by simp [hw]))
    · exact h.held r hr x hx

theorem addEntry {rs : List Loop} (hr : k.loops = r :: rs) (hheight : r.height = k.height) :
    Draft { k with loops := { r with entries := k.size :: r.entries } :: rs } t := by
  have hmem : ∀ r', r' ∈ { r with entries := k.size :: r.entries } :: rs →
      ∃ r'' ∈ k.loops, r''.start = r'.start ∧ r''.height = r'.height := by
    intro r' hr'
    rcases List.mem_cons.1 hr' with rfl | hr'
    · exact ⟨r, by simp [hr], rfl, rfl⟩
    · exact ⟨r', by simp [hr, hr'], rfl, rfl⟩
  refine { h with
    step := ?step, entries := ?entries, held := ?held, starts := ?starts, sorted := ?sorted }
  case step =>
    intro o w hw
    obtain ⟨op, hs⟩ := h.step hw
    refine ⟨op, hs.same (.refl _ op o) (Nat.le_refl _) (Nat.le_refl _) (fun r hr _ => hmem r hr)
      (fun _ hd => hd) ?_ id⟩
    rintro d v ⟨⟨u, hu, hheight, hopen⟩, hin⟩
    refine ⟨⟨u, hu, hheight, fun i hi => (hopen i hi).imp id ?_⟩, fun r' hr' hro => ?_⟩
    · rintro ⟨hf, r', hr', hro⟩
      refine ⟨hf, ?_⟩
      rw [hr] at hr'
      rcases List.mem_cons.1 hr' with rfl | hr'
      · exact ⟨_, List.mem_cons_self, hro⟩
      · exact ⟨r', List.mem_cons_of_mem _ hr', hro⟩
    · obtain ⟨r'', hr'', hstart, -⟩ := hmem r' hr'
      exact hstart ▸ hin r'' hr'' (hstart ▸ hro)
  case entries =>
    intro r' hr' d hd
    rcases List.mem_cons.1 hr' with rfl | hr'
    · rcases List.mem_cons.1 hd with rfl | hd
      · exact ⟨h.starts r (by simp [hr]), _, if_pos rfl, hheight.symm⟩
      · exact h.entries r (by simp [hr]) d hd
    · exact h.entries r' (by simp [hr, hr']) d hd
  case held =>
    intro r' hr' x hx
    obtain ⟨r'', hr'', hstart, hheight'⟩ := hmem r' hr'
    exact hstart ▸ hheight' ▸ h.held r'' hr'' x hx
  case starts =>
    intro r' hr'
    obtain ⟨r'', hr'', hstart, -⟩ := hmem r' hr'
    exact hstart ▸ h.starts r'' hr''
  case sorted =>
    have hs := h.sorted
    rw [hr] at hs
    exact hs.tail.cons fun r' hr' => (List.pairwise_cons.1 hs).1 r' hr'

end

/-- The chart with the variables below `r` that are captured open all over the loop. -/
def widen (k : Sketch) (r : Loop) (t : Chart) : Chart := fun o =>
  if r.start ≤ o then
    (t o).map fun w => ⟨w.height, fun i => w.opened i ∨ i < r.height ∧ k.flagged i⟩
  else t o

/-- A loop ends. What was captured inside it is let in everywhere in it. -/
theorem closeLoop (h : k.Draft t) {rs : List Loop} (hr : k.loops = r :: rs)
    (hheight : r.height ≤ k.height) : Draft { k with loops := rs } (widen k r t) := by
  have hsome : ∀ o, (widen k r t o).isSome = (t o).isSome := by
    intro o
    unfold widen
    split <;> simp
  have hmem : ∀ r' ∈ rs, r' ∈ k.loops := fun r' hr' => hr ▸ List.mem_cons_of_mem _ hr'
  -- what is expected at `d` only grows, and inside the loop by all that is captured
  have hlook : ∀ {d u}, k.look t d = some u → ∃ u', look { k with loops := rs } (widen k r t) d =
    some u' ∧ u ≤ u' ∧
        (r.start ≤ d → ∀ i, i < r.height → k.flagged i → u'.opened i) := by
    intro d u hu
    unfold look at hu ⊢
    by_cases hd : d = k.size
    · rw [if_pos hd] at hu
      obtain rfl := Option.some.inj hu
      exact ⟨_, if_pos hd, Window.le_refl _, fun _ i hi hf => ⟨Nat.lt_of_lt_of_le hi hheight, hf⟩⟩
    · rw [if_neg hd] at hu
      by_cases hle : r.start ≤ d
      · refine ⟨⟨u.height, fun i => u.opened i ∨ i < r.height ∧ k.flagged i⟩, ?_,
          ⟨rfl, fun i hi => .inl hi⟩, fun _ i hi hf => .inr ⟨hi, hf⟩⟩
        exact (if_neg hd).trans (by simp [widen, hle, hu])
      · exact ⟨u, (if_neg hd).trans (by simp [widen, hle, hu]), u.le_refl, fun hle' => absurd hle' hle⟩
  have hwindow : ∀ {o w'}, widen k r t o = some w' → ∃ w, t o = some w ∧ w.height = w'.height ∧
      ∀ i, w'.opened i → w.opened i ∨ r.start ≤ o ∧ i < r.height ∧ k.flagged i := by
    intro o w' hw'
    unfold widen at hw'
    split at hw'
    · rename_i hle
      obtain ⟨w, hw, rfl⟩ := Option.map_eq_some_iff.1 hw'
      exact ⟨w, hw, rfl, fun i hi => hi.imp id fun hi => ⟨hle, hi⟩⟩
    · exact ⟨w', hw', rfl, fun i hi => .inl hi⟩
  have hgoes : ∀ {o d v v'}, k.Goes t o d v → v'.height = v.height →
      (∀ i, v'.opened i → v.opened i ∨ r.start ≤ o ∧ i < r.height ∧ k.flagged i) →
      Goes { k with loops := rs } (widen k r t) o d v' := by
    rintro o d v v' ⟨⟨u, hu, hv, hopen⟩, hin⟩ hv' hopen'
    obtain ⟨u', hu', hle, hflag⟩ := hlook hu
    refine ⟨⟨u', hu', hv'.trans (hv.trans hle.1), fun i hi => ?_⟩, fun r' hr' => hin r' (hmem r' hr')⟩
    rcases hopen' i hi with hi | ⟨hro, hi, hf⟩
    · rcases hopen i hi with hi | ⟨hf, r', hr', hro, hrd, hi⟩
      · exact .inl (hle.2 i hi)
      · rw [hr] at hr'
        rcases List.mem_cons.1 hr' with rfl | hr'
        · exact .inl (hflag hrd i hi hf)
        · exact .inr ⟨hf, r', hr', hro, hrd, hi⟩
    · exact .inl (hflag (hin r (by simp [hr]) hro) i hi hf)
  have hafter : ∀ {o w w'} (op : Op), w.height = w'.height →
      (∀ i, w'.opened i → w.opened i ∨ r.start ≤ o ∧ i < r.height ∧ k.flagged i) →
      (k.chunk.after op o w').height = (k.chunk.after op o w).height ∧
      ∀ i, (k.chunk.after op o w').opened i → (k.chunk.after op o w).opened i ∨ r.start ≤ o ∧
      i < r.height ∧ k.flagged i := by
    intro o w w' op hh hopen
    refine ⟨by simp [Chunk.after, hh], ?_⟩
    rintro i (⟨hi, ho⟩ | hc)
    · exact (hopen i ho).imp (fun ho => .inl ⟨hh.symm ▸ hi, ho⟩) id
    · exact .inl (.inr hc)
  refine { h with
    step := ?step
    apart := ?apart
    entry := h.entry_of fun hu => (hlook hu).imp fun _ hu' => ⟨hu'.1, hu'.2.1.1⟩
    waits := ?waits
    entries := fun r' hr' d =>
      h.entries_of (fun hu => (hlook hu).imp fun _ hu' => ⟨hu'.1, hu'.2.1.1⟩) (hmem r' hr')
    held := fun r' hr' => h.held r' (hmem r' hr')
    starts := fun r' hr' => h.starts r' (hmem r' hr')
    sorted := (hr ▸ h.sorted).tail }
  case step =>
    intro o w' hw'
    obtain ⟨w, hw, hh, hopen⟩ := hwindow hw'
    obtain ⟨op, hs⟩ := h.step hw
    obtain ⟨hh', hopen'⟩ := hafter op hh hopen
    refine ⟨op, hs.fits.of_height hh, ⟨hs.tidy.sane, ?_, hs.tidy.kinds⟩, hh ▸ hs.low, ?_, ?_, ?_, ?_⟩
    · intro hne i (hi : w'.height ≤ i + k.chunk.pops op o) hi' ho
      rw [← hh] at hi hi'
      rcases hopen i ho with ho | ⟨hro, hlt, -⟩
      · exact hs.tidy.closed hne i hi hi' ho
      · -- the body leaves the values below the loop alone
        have : r.height + k.chunk.pops op o ≤ w.height := hs.floor r (by simp [hr]) hro
        omega
    · exact fun r' hr' hro => hh ▸ hs.floor r' (hmem r' hr') hro
    · exact hs.next.imp id fun hn => (hsome _).trans hn
    · exact fun hf => hgoes (hs.falls hf) hh' hopen'
    · exact fun hj => (hs.jumps hj).imp id fun hd => hd.imp fun d hd => ⟨hd.1, hgoes hd.2 hh' hopen'⟩
  case apart =>
    intro o w' o' op hw' hop ho' hlt
    obtain ⟨w, hw, -⟩ := hwindow hw'
    exact h.apart hw hop ((hsome o').symm.trans ho') hlt
  case waits =>
    intro x hx
    obtain ⟨hbelow, o, w, op, ho, hw, hop, hj, hle⟩ := h.waits x hx
    refine ⟨hbelow, ?_⟩
    rcases h.held r (by simp [hr]) x hx with hstart | hrx
    · exact ⟨o, w, op, ho, by rw [widen, if_neg (by omega)]; exact hw, hop, hj, hle⟩
    · obtain ⟨w', hw'⟩ := Option.isSome_iff_exists.1 ((hsome o).trans (by simp [hw]))
      obtain ⟨w0, hw0, hh, hopen⟩ := hwindow hw'
      obtain rfl : w0 = w := Option.some.inj (hw0.symm.trans hw)
      obtain ⟨hh', hopen'⟩ := hafter op hh hopen
      refine ⟨o, w', op, ho, hw', hop, hj, hh'.trans hle.1, fun i hi => ?_⟩
      rcases hopen' i hi with hi | ⟨-, hi, hf⟩
      · exact hle.2 i hi
      · exact ⟨Nat.lt_of_lt_of_le hi hrx, hf⟩

/-! ### The end of the code -/

/-- Control that could go on at any height does not come to the end of the code. -/
theorem lands (hloops : k.loops = []) {o d : Nat} {v : Window} (hg : k.Goes t o d v)
    (hg' : Goes { k with height := k.height + 1 } t o d v) : t.Lands d v := by
  obtain ⟨⟨u, hu, hv, hopen⟩, -⟩ := hg
  obtain ⟨⟨u', hu', hv', -⟩, -⟩ := hg'
  unfold look at hu hu'
  by_cases hd : d = k.size
  · obtain rfl := Option.some.inj ((if_pos hd).symm.trans hu)
    obtain rfl := Option.some.inj ((if_pos hd).symm.trans hu')
    have : k.height = k.height + 1 := hv.symm.trans hv'
    omega
  · refine ⟨u, (if_neg hd).symm.trans hu, hv, fun i hi => (hopen i hi).resolve_right ?_⟩
    rintro ⟨-, r, hr, -⟩
    simp [hloops] at hr

/-- Code that control cannot leave at its end has a complete chart. -/
theorem assembled {p : Proto} (h : k.Draft t) (h' : Draft { k with height := k.height + 1 } t)
    (hpending : k.pending = []) (hloops : k.loops = []) (hchunk : p.chunk = k.chunk)
    (harity : p.arity = k.arity) (hsmall : k.arity ≤ 255) (hup : p.upvalueCount = k.upvalues)
    (hlast : k.chunk.op? (k.size - 1) = some .return) (hlast' : (t (k.size - 1)).isSome) :
    p.Assembled t := by
  have hcode : p.code.size = k.size := congrArg (fun c : Chunk Constant => c.code.size) hchunk
  have hpos : 0 < k.size := by have := h.lt_size hlast'; omega
  constructor
  case toCharted =>
    constructor
    case entry =>
      obtain ⟨u, hu, hheight⟩ := h.entry
      refine ⟨u, (if_neg (by omega)).symm.trans hu, ?_, fun _ hi => hi.elim⟩
      rw [hheight, harity]
      exact Int.toNat_natCast (1 + k.arity)
    case fits =>
      intro o w hw
      obtain ⟨op, hs⟩ := h.step hw
      exact ⟨op, by rw [hchunk, hup]; exact hs.fits⟩
    case flows =>
      intro o w op hw hop _ d hd
      rw [hchunk] at hop hd ⊢
      have hs := h.step_op hw hop
      have hs' := h'.step_op hw hop
      rcases List.mem_append.1 hd with hd | hd
      · split at hd
        · rename_i hj
          obtain rfl := List.mem_singleton.1 hd
          obtain ⟨d, hd, hg⟩ := (hs.jumps hj).resolve_left fun hx => hx.elim fun x hx => by
            simp [hpending] at hx
          obtain ⟨d', hd', hg'⟩ :=
            (hs'.jumps hj).resolve_left fun hx => hx.elim fun x hx => by simp [hpending] at hx
          obtain rfl : d = d' := Int.ofNat.inj (hd.symm.trans hd')
          exact ⟨d, hd, lands hloops hg hg'⟩
        · simp at hd
      · split at hd
        · rename_i hf
          obtain rfl := List.mem_singleton.1 hd
          exact ⟨_, rfl, lands hloops (hs.falls hf) (hs'.falls hf)⟩
        · simp at hd
  case lines_eq =>
    have hlines : p.lines.size = k.chunk.lines.size :=
      congrArg (fun c : Chunk Constant => c.lines.size) hchunk
    rw [hcode, hlines]
    exact h.lines_eq
  case pool =>
    have hpool := h.pool
    rw [← hchunk] at hpool
    simpa [Proto.chunk] using hpool
  case arity_nonneg => omega
  case arity_le => omega
  case tidy =>
    intro o w op hw hop
    rw [hchunk] at hop ⊢
    exact (h.step_op hw hop).tidy
  case low =>
    intro o w hw
    obtain ⟨op, hs⟩ := h.step hw
    exact hs.low
  case next =>
    intro o w op hw hop
    rw [hchunk] at hop ⊢
    rw [hcode]
    exact (h.step_op hw hop).next
  case apart =>
    intro o w o' op hw hop
    rw [hchunk] at hop ⊢
    exact h.apart hw hop
  case ends =>
    rw [hchunk, hcode]
    exact ⟨hlast, hlast'⟩

end Draft

end Sketch

end Parlance
