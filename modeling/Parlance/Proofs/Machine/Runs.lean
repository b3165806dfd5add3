/-
  Whole runs of vetted code.
-/
import Parlance.Proofs.Machine.Steps

namespace Parlance

open Heap (idle)

namespace Vetting

/-- What the host may lay out. -/
def Stores (V : Vetting) (o : Object) : Prop := o.Fixed ∧ V.Welcomes o

theorem admits_stores (V : Vetting) : Object.Admits V.Stores := fun _ ho => ⟨ho.fixed, ho.welcome V⟩

end Vetting

namespace Machine

variable {V : Vetting} {p : Proto} {m m' : Machine} {host : Host} {r : Ref}

/-- Where the machine is after some turns. -/
def Stays (V : Vetting) (m : Machine) : (done : Bool) → Prop
  | false => m.Placed V
  | true => m.Ready V

/-- **A run of vetted code**, for any number of turns. -/
theorem Placed.runFor (hm : m.Placed V) (hhost : V.Hosts host) (turns : Nat) :
    Exec.Meets V (Exec.runFor host turns) m fun done m' => m'.Stays V done := by
  induction turns generalizing m with
  | zero => exact hm
  | succ turns ih =>
    rw [Exec.runFor]
    refine .bind (hm.step hhost) ?_
    intro progress m' hm'
    cases progress with
    | running => exact ih hm'
    | finished => exact hm'

/-! ## The beginning of a run -/

section

variable (hm : m.Ready V) (hl : m.heap.Live r) (hlaid : m.heap.LaidOut p r) (hgood : V.good p)
  (hbare : V.strict → p.upvalueCount = 0)
include hm hl hlaid hgood hbare

/-- The closure of a vetted function without captured variables is made, while the function is on
the stack. -/
theorem Ready.newClosure :
    Exec.Meets V (Exec.newClosure r)
    { m with interrupted := false, stack := m.stack.push (.object r) } fun c m' =>
      m' = { m with interrupted := false, stack := m.stack.push (.object r), heap := m'.heap } ∧
        m'.Sound ∧
      m'.heap.Vetted V (· = c) ∧ m'.heap.LaidOut p r ∧
      m.heap.Allocated (roots { m with stack := m.stack.push (.object r) }).refs
        (.closure (some r) (Array.replicate p.upvalueCount.toNat none)) c m'.heap := by
  have hs : Sound { m with interrupted := false, stack := m.stack.push (.object r) } :=
    { hm.sound.push (v := .object r) hl with }
  have hreach :
      m.heap.Reach (roots { m with interrupted := false, stack := m.stack.push (.object r) }).refs
      r := by
    refine .root (mem_refs.2 (Or.inl ?_))
    simp only [Stack.toList_push hm.sound.depth_le]
    exact List.mem_append_right _ List.mem_cons_self
  refine (Exec.Meets.newClosure hs hm.vetted hgood hlaid hreach fun hstrict => ?_).mono fun _ _ h =>
    h.2
  rw [Proto.Sane, hbare hstrict]
  decide

theorem Ready.start : Exec.Meets V (Exec.start r) m fun _ m' => m'.Placed V := by
  unfold Exec.start
  refine .bind_ok (x := modify _) rfl
    (.bind_ok (x := Exec.push _) rfl (.bind (hm.newClosure hl hlaid hgood hbare) ?_))
  rintro c m1 ⟨hrest, hs1, hv1, hlaid1, ha⟩
  have hstack : m1.stack = m.stack.push (.object r) := by rw [hrest]
  have hframes : m1.frames = #[] := by rw [hrest]; exact hm.frames_eq
  have hopens : m1.openUpvalues = [] := by rw [hrest]; exact hm.opens_eq
  have hdepth : m1.stack.depth = m.stack.depth + 1 := by rw [hstack, Stack.depth_push]
  have hv2 : m1.heap.Vetted V idle := by
    refine hv1.complete ha.object_new fun hstrict i hi => ?_
    rw [hbare hstrict] at hi
    simp at hi
  obtain ⟨_, -, hpop⟩ := Exec.pop_eq hs1.depth_le hdepth
  have hs2 := (hs1.cutTo (n := m.stack.depth) (by omega)).push (v := .object c) ha.live_new
  have hstanding : Standing V { m1 with stack := (m1.stack.cutTo m.stack.depth).push (.object c) } :=
    ⟨hs2, hv2, by simp [hframes], by simp [hopens]⟩
  have hruns : m1.heap.Runs c p := ⟨r, _, ha.object_new, by simp, hlaid1⟩
  obtain ⟨r', us, hobj, hmeets⟩ :=
    hstanding.enterCall ha.live_new hruns hgood 0 m.stack.depth (Nat.zero_le _)
    (by simp [Stack.depth_push, Stack.cutTo])
    (by
      simp only [hframes, hopens]
      exact .nil (by simp))
    (by simp [hopens])
  have hsame : r' = r := by
    have hobj' : m1.heap.object? c = some (.closure (some r') us) := hobj
    rw [ha.object_new] at hobj'
    cases hobj'
    rfl
  subst hsame
  have hdiscard : (discard Exec.pop : Exec Unit) m1 =
      .ok ⟨⟩ { m1 with stack := m1.stack.cutTo m.stack.depth } := by
    show EStateM.map _ Exec.pop m1 = _
    simp only [EStateM.map, hpop]
  exact .bind_ok hdiscard (.bind_ok (x := Exec.push _) rfl hmeets)

end

/-! ## The end of a run -/

theorem abandonUpvalue_eq (stack : Stack) {h : Heap} {u : Upvalue}
    (hu : h.object? r = some (.upvalue u)) : abandonUpvalue stack h r =
      h.setObject r
      (.upvalue { u with isOpen := false, closed := (stack.get? u.slot).getD .nul }) := by
  simp [abandonUpvalue, hu]

theorem Sound.abandonUpvalue {us : List Ref} (hs : m.Sound) (hv : m.heap.Vetted V idle)
    (hus : m.openUpvalues = r :: us) :
    Sound { m with heap := Machine.abandonUpvalue m.stack m.heap r, openUpvalues := us } ∧
      (Machine.abandonUpvalue m.stack m.heap r).Vetted V idle := by
  have hopens : m.heap.Opens (r :: us) := hus ▸ hs.opens
  obtain ⟨hl, u, hu, -⟩ := hopens.upvalue List.mem_cons_self
  rw [abandonUpvalue_eq m.stack hu]
  have hlive : m.heap.LiveValue ((m.stack.get? u.slot).getD .nul) := by
    cases hget : m.stack.get? u.slot with
    | none => trivial
    | some v => exact Exec.live_of_get? hs hget
  have hs' := hs.setUpvalue
    (y := { u with isOpen := false, closed := (m.stack.get? u.slot).getD .nul }) hu hlive
    (hopens.close rfl)
  exact ⟨hs', hv.setUpvalue hs.heap hu rfl hs'.heap⟩

theorem Sound.abandonAll (us : List Ref) (hs : m.Sound) (hv : m.heap.Vetted V idle)
    (hus : m.openUpvalues = us) :
    Sound { m with heap := us.foldl (Machine.abandonUpvalue m.stack) m.heap, openUpvalues := [] } ∧
      (us.foldl (Machine.abandonUpvalue m.stack) m.heap).Vetted V idle := by
  induction us generalizing m with
  | nil =>
    refine ⟨?_, hv⟩
    have heq : m = { m with openUpvalues := [] } := by rw [← hus]
    exact heq ▸ hs
  | cons r us ih =>
    obtain ⟨hs', hv'⟩ := hs.abandonUpvalue hv hus
    exact ih hs' hv' rfl

theorem Sound.ready_abandon (hs : m.Sound) (hv : m.heap.Vetted V idle) : m.abandon.Ready V := by
  obtain ⟨hs', hv'⟩ := hs.abandonAll m.openUpvalues hv rfl
  exact ⟨(hs'.cutTo (Nat.zero_le _)).withFrames (by simp), hv', rfl, rfl⟩

/-- A computation has come to `Q`, or it ended early and the machine can be used again. On strict
code it did not end in a fault. -/
def Settled {α : Type} (V : Vetting) (Q : α → Machine → Prop) : Except RuntimeError α × Machine → Prop
  | (.ok a, m) => Q a m
  | (.error e, m) => m.Ready V ∧ (V.strict → ∀ f, e.failure ≠ .fault f)

/-- However a computation on vetted code ends, the machine is placed or ready. -/
theorem settled_settle {α : Type} {x : Exec α} {Q : α → Machine → Prop} (hx : Exec.Meets V x m Q) :
    Settled V Q (settle (x m)) := by
  unfold Exec.Meets at hx
  cases h : x m with
  | ok b m1 =>
    rw [h] at hx
    exact hx
  | error e m1 =>
    rw [h] at hx
    cases e with
    | failed e => exact ⟨hx.1, fun _ => hx.2⟩
    | fault f => exact ⟨hx.2.1.ready_abandon hx.2.2, fun hstrict => (hx.1 hstrict).elim⟩

/-! ## Runs -/

theorem Ready.settled_begin (hm : m.Ready V) (file : String) (hl : m.heap.Live r)
    (hlaid : m.heap.LaidOut p r) (hgood : V.good p) (hbare : V.strict → p.upvalueCount = 0) :
    Settled V (fun _ m' => m'.Placed V) (m.begin file r) := by
  have hm' : Ready V { m with file } := { hm with sound := { hm.sound with } }
  exact settled_settle (hm'.start hl hlaid hgood hbare)

/-- Where the machine is after a run that ended so: it can go on, if the turns were used up, and
else be used again. Runs of strict code do not end in a fault. -/
def Leaves (V : Vetting) : Outcome × Machine → Prop
  | (.unfinished, m) => m.Placed V
  | (.failed e, m) => m.Ready V ∧ (V.strict → ∀ f, e.failure ≠ .fault f)
  | (_, m) => m.Ready V

theorem Placed.leaves_resume (hm : m.Placed V) (hhost : V.Hosts host) (turns : Nat) :
    Leaves V (m.resume host turns) := by
  have hsettled := settled_settle (hm.runFor hhost turns)
  unfold resume
  revert hsettled
  rw [show (Exec.runFor host turns).run m = (Exec.runFor host turns) m from rfl]
  generalize settle ((Exec.runFor host turns) m) = s
  obtain ⟨a, m'⟩ := s
  intro hsettled
  cases a with
  | error e => exact hsettled
  | ok done => cases done <;> exact hsettled

/-- **A run of a vetted function** leaves a machine that can go on or be used again. -/
theorem Ready.leaves_runFunction (hm : m.Ready V) (hhost : V.Hosts host) (turns : Nat) (file : String)
    (hl : m.heap.Live r) (hlaid : m.heap.LaidOut p r) (hgood : V.good p)
    (hbare : V.strict → p.upvalueCount = 0) : Leaves V (m.runFunction host turns file r) := by
  have hsettled := hm.settled_begin file hl hlaid hgood hbare
  unfold runFunction
  revert hsettled
  generalize m.begin file r = s
  obtain ⟨a, m'⟩ := s
  intro hsettled
  cases a with
  | error e => exact hsettled
  | ok _ => exact Placed.leaves_resume hsettled hhost turns

/-! ## The host's side -/

theorem ready_new (V : Vetting) (settings : Settings) : (new settings).Ready V := by
  have hnone : ∀ x, ¬ (new settings).heap.Live x := by
    rintro x ⟨i, hi, -⟩
    simp [new, Heap.new, Heap.slotOf?] at hi
  exact ⟨sound_new settings, ⟨fun hl => (hnone _ hl).elim, fun hl => (hnone _ hl).elim,
    fun _ _ _ _ _ hl => (hnone _ hl).elim⟩, rfl, rfl⟩

theorem Ready.evolves (hm : m.Ready V) {h' : Heap} (he : m.heap.Evolves m.roots.refs h')
    (hnew : Heap.Adds V.Stores m.heap h') : Ready V { m with heap := h' } where
  sound := hm.sound.evolves he (hnew.addsNoOpen fun _ h => h.1)
  vetted := hm.vetted.evolves he hm.sound.heap fun hl hge ho => (hnew hl hge ho).2
  frames_eq := hm.frames_eq
  opens_eq := hm.opens_eq

theorem Ready.load (hm : m.Ready V) (hp : p.Admitted V.Stores) : (m.load p).2.Ready V ∧
    (m.load p).2.heap.Live (m.load p).1 ∧ (m.load p).2.heap.LaidOut p (m.load p).1 := by
  have hl := Heap.layOut_spec V.admits_stores hm.sound.heap (fun x hx => hm.sound.roots hx) hp
  exact ⟨hm.evolves hl.toEvolves hl.adds, hl.live, hl.laid⟩

end Machine

end Parlance
