/-
  Machines in use, and the moments at which they may collect.

  Between two instructions, or two steps of a compilation, the machine allocates, interns, changes
  an object in place or moves its roots. So does a native, and so does decoding. The moments in
  between are those that these moves lead to.
-/
import Parlance.Image.Decoding
import Parlance.Proofs.Heap.Exactness
import Parlance.Proofs.Machine.Accepted
import Parlance.Proofs.Machine.Scripts

namespace Parlance

-- no statement about runs looks into compilations
attribute [local irreducible] compileTokens

/-- Decodes an image and runs it. What was laid out of one that is refused goes with the next
collection. -/
def Machine.runImage (m : Machine) (host : Host) (turns : Nat) (file : String) (bytes : Array UInt8)
    (S : Slots := .stack) : Except Image.DecodeError Outcome × Machine :=
  match Image.read bytes with
  | .error fault => (.error fault.error, match fault.begun with
    | some p => (m.load p).2
    | none => m)
  | .ok p =>
    let (r, m) := m.load p
    let (o, m) := m.runFunction host turns file r S
    (.ok o, m)

/-! ## Accepted functions on a machine -/

theorem Proto.admitted_trusting {V : Vetting} (hnot : ¬ V.strict) (host : Host)
    (P : Int → Routine → Prop) (p : Proto) : p.Admitted (V.trusting host P).Stores :=
  p.admitted_of_native fun name =>
    ⟨trivial, (Vetting.trusts_of_none hnot rfl : V.Trusts host P ⟨name, 0, none⟩)⟩

theorem Proto.admitted_accepted (host : Host) (p : Proto) :
    p.Admitted (Vetting.accepted host).Stores :=
  p.admitted_trusting (V := .verified) id host fun _ _ => True

theorem Image.verify_of_read {bytes : Array UInt8} {p : Proto} (h : Image.read bytes = .ok p) :
    p.verify = .ok () := by
  unfold Image.read at h
  repeat' split at h
  all_goals first | cases h; done | skip
  cases h
  assumption

namespace Machine

variable {host : Host} {m m' : Machine} {turns : Nat} {file source : String} {bytes : Array UInt8}
  {p : Proto} {r : Ref}

theorem Ready.leaves_source (hm : m.Ready (Vetting.accepted host)) (turns : Nat)
    (file source : String) : Leaves (Vetting.accepted host) (m.run host turns file source) :=
  hm.leaves_vetted (Vetting.hosts_accepted host) turns file source fun _ hp =>
    (compileTokens_spec hp).1.verify

theorem Leaves.ready {V : Vetting} {s : Outcome × Machine} (h : Leaves V s)
    (ended : s.1 ≠ .unfinished) : s.2.Ready V := by
  obtain ⟨o, m⟩ := s
  cases o with
  | unfinished => exact (ended rfl).elim
  | failed e => exact h.1
  | finished => exact h
  | refused ds => exact h

/-- The machines that compiling, decoding, running and binding natives lead to. The host can be
trusted with the natives; they may give up. -/
inductive InUse (host : Host) : Machine → Prop
  | new (settings : Settings) : InUse host (new settings)
  | native {m m' : Machine} {r : Ref} {name : String} {arity : Int} {code : Nat}
      (before : InUse host m) (trusted : (Vetting.accepted host).native ⟨name, arity, some code⟩)
      (bound : (Exec.defineNative name arity code) m = .ok r m') : InUse host m'
  | compiled {m : Machine} {file source : String} (before : InUse host m) :
      InUse host (m.compile file source).2
  | run {m : Machine} {turns : Nat} {file source : String} (before : InUse host m)
      (ended : (m.run host turns file source).1 ≠ .unfinished) :
      InUse host (m.run host turns file source).2
  | loaded {m : Machine} {p : Proto} (before : InUse host m) : InUse host (m.load p).2
  | image {m : Machine} {turns : Nat} {file : String} {bytes : Array UInt8} (before : InUse host m)
      (ended : (m.runImage host turns file bytes).1 ≠ .ok .unfinished) :
      InUse host (m.runImage host turns file bytes).2

theorem Ready.loaded (hm : m.Ready (Vetting.accepted host)) (p : Proto) :
    (m.load p).2.Ready (Vetting.accepted host) :=
  (hm.load (p.admitted_accepted host)).1

theorem Ready.leaves_decoded {V : Vetting} (hm : m.Ready V) (hhost : V.Hosts host) (turns : Nat)
    (file : String) (hadmitted : ∀ p : Proto, p.Admitted V.Stores)
    (hgood : ∀ p, Image.read bytes = .ok p → V.good p ∧ (V.strict → p.upvalueCount = 0)) :
    match m.runImage host turns file bytes with
    | (.ok o, m') => Leaves V (o, m')
    | (.error _, m') => m'.Ready V := by
  unfold runImage
  cases hread : Image.read bytes with
  | error fault =>
    obtain ⟨e, begun⟩ := fault
    cases begun with
    | none => exact hm
    | some p => exact (hm.load (hadmitted p)).1
  | ok p =>
    obtain ⟨hloaded, hl, hlaid⟩ := hm.load (hadmitted p)
    exact hloaded.leaves_runFunction hhost turns file hl hlaid (hgood p hread).1 (hgood p hread).2

theorem Ready.leaves_image (hm : m.Ready (Vetting.accepted host)) (turns : Nat) (file : String)
    (bytes : Array UInt8) :
    match m.runImage host turns file bytes with
    | (.ok o, m') => Leaves (Vetting.accepted host) (o, m')
    | (.error _, m') => m'.Ready (Vetting.accepted host) :=
  hm.leaves_decoded (Vetting.hosts_accepted host) turns file (Proto.admitted_accepted host)
    fun _ hread => ⟨Image.verify_of_read hread, False.elim⟩

theorem InUse.ready (hm : m.InUse host) : m.Ready (Vetting.accepted host) := by
  induction hm with
  | new settings => exact ready_new _ settings
  | @native m m' r name arity code _ trusted bound ih =>
    obtain ⟨r', m'', hdefine, hready⟩ := ih.defineNative name arity code trusted
    rw [bound] at hdefine
    cases hdefine
    exact hready
  | compiled _ ih => exact ih.compile _ _
  | @run m turns file source _ ended ih => exact (ih.leaves_source turns file source).ready ended
  | @loaded m p _ ih => exact ih.loaded p
  | @image m turns file bytes _ ended ih =>
    have hleaves := ih.leaves_image turns file bytes
    revert hleaves ended
    generalize m.runImage host turns file bytes = result
    obtain ⟨a, m'⟩ := result
    intro ended hleaves
    cases a with
    | error e => exact hleaves
    | ok o => exact hleaves.ready (s := (o, m')) fun h => ended (congrArg Except.ok h)

end Machine

/-! ## Moments -/

/-- A heap and its roots at some time in the life of a machine: between two calls of the host,
between two steps of a compilation, between two instructions, or after some of the moves that are
made in between. -/
inductive Moment (host : Host) : Heap → Roots → Prop
  | idle {m : Machine} (used : m.InUse host) : Moment host m.heap m.roots
  /-- The steps `done` of a compilation are taken. The functions begun are roots. -/
  | compiling {m : Machine} {file source : String} {done : List Build} {b : Heap.Building}
      (used : m.InUse host) (steps : done <+: (compile file source).builds)
      (taken : m.heap.buildAll m.roots m.settings.printCode done = b) :
      Moment host b.heap { m.roots with pending := b.pending }
  /-- A function that is laid out on the machine has run for some turns. -/
  | running {m m₁ m' : Machine} {file : String} {r : Ref} {p : Proto} {turns : Nat}
      (used : m.InUse host)
      (live : m.heap.Live r) (laid : m.heap.LaidOut p r) (accepted : p.verify = .ok ())
      (begun : m.begin file r = (.ok (), m₁)) (ran : (Exec.runFor host turns) m₁ = .ok false m') :
      Moment host m'.heap m'.roots
  /-- Values are pushed, popped or pinned, calls begin and end, captured variables open and
  close. -/
  | rerooted {h : Heap} {roots roots' : Roots} (before : Moment host h roots)
      (live : ∀ r ∈ roots'.refs, h.Live r) : Moment host h roots'
  | allocated {h : Heap} {roots : Roots} {o : Object} (before : Moment host h roots)
      (text : ∀ s x, o ≠ .text s x)
      (children : ∀ c ∈ o.children, h.Reach roots.refs c) : Moment host (h.allocate roots o).2 roots
  | interned {h : Heap} {roots : Roots} {s : String} (before : Moment host h roots) :
      Moment host (h.intern roots s).2 roots
  /-- An object is filled in, or a captured variable closed. -/
  | changed {h : Heap} {roots : Roots} {r : Ref} {old o : Object} (before : Moment host h roots)
      (there : h.object? r = some old) (text : ∀ s x, old ≠ .text s x) (text' : ∀ s x, o ≠ .text s x)
      (children : ∀ c ∈ o.children, h.Live c) : Moment host (h.setObject r o) roots
  | recharged {h : Heap} {roots : Roots} {r : Ref} (before : Moment host h roots) :
      Moment host (h.recharge r) roots
  | collected {h : Heap} {roots : Roots} (before : Moment host h roots) :
      Moment host (h.collect roots) roots

theorem Moment.sound {host : Host} {h : Heap} {roots : Roots} (hm : Moment host h roots) :
    h.Sound ∧ ∀ r ∈ roots.refs, h.Live r := by
  induction hm with
  | idle used => exact ⟨used.ready.sound.heap, fun _ hr => used.ready.sound.roots hr⟩
  | @compiling m file source done b used steps taken =>
    subst taken
    have hready := used.ready
    obtain ⟨hu, hlive⟩ := hready.sound.heap.building (Vetting.accepted host).admits_stores
      (fun x (hx : x ∈ (Heap.withPending m.roots []).refs) => hready.sound.roots hx)
      m.settings.printCode
      fun b hb => admitted_builds file source b (steps.subset hb)
    exact ⟨hu.sound, hlive⟩
  | @running m m1 m' file r p turns used live laid accepted begun ran =>
    have hbegun := used.ready.settled_begin file live laid accepted False.elim
    rw [begun] at hbegun
    have hplaced : m1.Placed (Vetting.accepted host) := hbegun
    obtain ⟨p, f, below, w, hat, -⟩ : m'.Placed (Vetting.accepted host) :=
      (hplaced.runFor (Vetting.hosts_accepted host) turns).of_run ran
    exact ⟨hat.sound.heap, fun _ hr => hat.sound.roots hr⟩
  | rerooted _ live ih => exact ⟨ih.1, live⟩
  | allocated _ text children ih =>
    have ha := ih.1.allocate ih.2 text children
    exact ⟨ha.sound, fun _ hr => ha.live_of_mem hr⟩
  | @interned h roots s _ ih =>
    have hi := ih.1.intern ih.2 s
    exact ⟨hi.sound, fun _ hr => hi.live_of_mem hr⟩
  | changed _ there text text' children ih =>
    exact ⟨ih.1.setObject there text text' children, fun r hr =>
      (Heap.live_setObject ..).2 (ih.2 r hr)⟩
  | @recharged h roots r _ ih =>
    have ha := h.agrees_recharge r
    exact ⟨ha.sound ih.1, fun x hx => ha.live_iff.2 (ih.2 x hx)⟩
  | collected _ ih =>
    have hc := ih.1.collect ih.2
    exact ⟨hc.sound, fun r hr => (hc.live_iff r).2 (.root hr)⟩

/-- **Collections are exact.** At every moment in the life of a machine a collection keeps each
object that the roots reach in its slot, as it is, releases every other object and empties its slot,
takes exactly the released strings out of the table, and leaves no mark behind; a second collection
leaves slots, objects and strings as they are. -/
theorem collect_spares {host : Host} {h : Heap} {roots : Roots} (hm : Moment host h roots) :
    h.Spares roots.refs (h.collect roots) ∧
    (h.collect roots).Twin ((h.collect roots).collect roots) := by
  obtain ⟨hs, hroots⟩ := hm.sound
  have hc := hs.collect hroots
  refine ⟨hs.spares_collect hroots, hc.sound.twin_collect (fun r hr => (hc.live_iff r).2 (.root hr))
    fun r hr => ?_⟩
  -- what the roots reach they still reach, through the same objects
  have hreach : ∀ {x}, h.Reach roots.refs x → (h.collect roots).Reach roots.refs x := fun hx => by
    induction hx with
    | root hx => exact .root hx
    | step hx ho hchild ih => exact .step ih ((hc.object_eq _ ((hc.live_iff _).2 hx)).trans ho) hchild
  exact hreach ((hc.live_iff r).1 hr)

/-- A global, and a function that refers to itself in a block that ends. -/
def cyclicSource : String := "var g; \x7b fonction f() \x7b retourner f; \x7d \x7d"

/-- Of the seven objects that the run leaves, the closure and the variable that hold each other
among them, only the name of the global stays. -/
theorem collect_spares_cycle : ∃ h roots, Moment #[] h roots ∧ h.slots.countP (·.isSome) = 7 ∧
    (h.collect roots).slots.countP (·.isSome) = 1 ∧ h.Spares roots.refs (h.collect roots) := by
  have heval : (match (Machine.new {}).run #[] 100 "" cyclicSource with
    | (.finished, m) => m.heap.slots.countP (·.isSome) == 7 && (m.heap.collect m.roots).slots.countP
        (·.isSome) == 1
    | _ => false) = true := by decide +kernel
  cases hrun : (Machine.new {}).run #[] 100 "" cyclicSource with
  | mk o m =>
    rw [hrun] at heval
    cases o with
    | finished =>
      obtain ⟨hbefore, hafter⟩ := (Bool.and_eq_true ..).mp heval
      have hused :=
        @Machine.InUse.run #[] (Machine.new {}) 100 "" cyclicSource (.new {}) (by rw [hrun]; nofun)
      rw [hrun] at hused
      have hmoment := Moment.idle hused
      exact ⟨_, _, hmoment, eq_of_beq hbefore, eq_of_beq hafter, (collect_spares hmoment).1⟩
    | _ => cases heval

end Parlance
