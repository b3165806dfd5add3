/-
  Runs of compiled scripts.
-/
import Parlance.Native.Gallery
import Parlance.Proofs.Compiler.Laws
import Parlance.Proofs.Compiler.Scripts
import Parlance.Proofs.Machine.Natives
import Parlance.Proofs.Machine.Runs

namespace Parlance

-- no statement about runs looks into compilations
attribute [local irreducible] compileTokens

open Heap (idle)
open Native (notingRoutine freeingRoutine)

/-! ## Compiled functions -/

theorem Build.Literal.admitted {F : Object → Prop} {b : Build} (hb : b.Literal) : b.Admitted F := by
  cases b with
  | constant k =>
    cases k with
    | native _ => exact hb.elim
    | function _ => exact hb.elim
    | _ => trivial
  | _ => trivial

theorem admitted_builds {F : Object → Prop} (file source : String) :
    ∀ b ∈ (compile file source).builds, b.Admitted F :=
  fun b hb => (compileTokens_literal (tokens file source) b hb).admitted

open Classical in
/-- A complete chart of the function, if it has one. -/
noncomputable def Proto.chart (p : Proto) : Chart :=
  if h : ∃ t, p.Assembled t then h.choose else fun _ => none

theorem Proto.Sound.assembled {p : Proto} (hp : p.Sound) : p.Assembled p.chart := by
  have h : ∃ t, p.Assembled t := by
    cases hp with
    | intro t assembled _ => exact ⟨t, assembled⟩
  rw [Proto.chart, dif_pos h]
  exact h.choose_spec

/-- Functions as the compiler makes them, with charts that keep track of captured variables. -/
noncomputable def Vetting.sound : Vetting where
  strict := True
  good := Proto.Sound
  native _ := True
  chart := Proto.chart
  nested hp hq := hp.within (.nested hq (.refl _))
  charted hp _ _ := hp.assembled.toCharted
  lines hp := hp.assembled.lines_eq
  whole {p o w op} hp _ _ hw hop := by
    obtain ⟨op', hf, -, hle⟩ := hp.assembled.fits_op hw
    obtain rfl : op' = op := Option.some.inj (hf.op_eq.symm.trans hop)
    refine Nat.le_trans (Nat.add_le_add_left ?_ o) hle
    unfold Chunk.length
    split <;> simp [Op.width]
  tidy _ _ _ _ _ hp hw hop := hp.assembled.tidy hw hop

/-- Functions as the compiler makes them, and natives that the host can be trusted with. -/
noncomputable def Vetting.compiled (host : Host) : Vetting :=
  Vetting.sound.trusting host fun _ _ => True

theorem Vetting.hosts_compiled (host : Host) : (Vetting.compiled host).Hosts host := hosts_trusting ..

theorem Vetting.compiled_native {host : Host} {n : Native} {routine : Routine}
    (hroutine : n.code.bind (host[·]?) = some routine)
    (htame : ∀ V, Tame V n.arity routine) : (Vetting.compiled host).native n :=
  trusts_of_tame (V := .sound) (P := fun _ _ => True) hroutine (htame _) trivial

namespace Machine

variable {V : Vetting} {m m' : Machine} {host : Host} {file source : String} {p : Proto}

/-! ## Compilation -/

theorem compile_snd (m : Machine) (file source : String) : (m.compile file source).2 = { m with
    heap := (m.heap.buildAll m.roots m.settings.printCode
      (Parlance.compile file source).builds).heap } := by
  unfold compile
  dsimp only
  split <;> rfl

theorem compile_fst (m : Machine) (file source : String) : (m.compile file source).1 =
    match (m.heap.buildAll m.roots m.settings.printCode (Parlance.compile file source).builds).astray,
      (Parlance.compile file source).diagnostics,
      (m.heap.buildAll m.roots m.settings.printCode
        (Parlance.compile file source).builds).finished with
    | true, _, _ => .error []
    | false, [], some r => .ok r
    | false, ds, _ => .error ds := by
  unfold compile
  dsimp only
  split <;> simp only [*]

/-- Compiling lays the script out, and a refused source does no harm. -/
theorem Ready.compile (hm : m.Ready V) (file source : String) : (m.compile file source).2.Ready V := by
  obtain ⟨hu, -⟩ := hm.sound.heap.building V.admits_stores
    (fun x (hx : x ∈ (Heap.withPending m.roots []).refs) => hm.sound.roots hx) m.settings.printCode
    (admitted_builds file source)
  rw [compile_snd]
  exact hm.evolves hu.toEvolves hu.adds

/-- **Compiling on a sound heap.** Whatever the source, the script is laid out, and each name is
there the constant that it is in the code; so the machine answers as the compiler does. -/
theorem compile_spec (hs : m.heap.Sound) (hroots : ∀ r ∈ m.roots.refs, m.heap.Live r)
    (file source : String) :
    ∃ r, Heap.Lays Object.Fixed m.heap (Heap.withPending m.roots []).refs
    (Parlance.compile file source).script r
        (m.compile file source).2.heap ∧
      (m.compile file source).1 = match (Parlance.compile file source).result with
        | .ok _ => .ok r
        | .error ds => .error ds := by
  obtain ⟨hstraight, r, hr, hl⟩ := hs.buildAll (F := Object.Fixed) (fun _ ho => ho.fixed)
    (fun x (hx : x ∈ (Heap.withPending m.roots []).refs) => hroots x hx) m.settings.printCode
    (admitted_builds file source) (compileTokens_plan (tokens file source))
  refine ⟨r, ?_, ?_⟩
  · rw [compile_snd]
    exact hl
  · rw [compile_fst, hstraight, hr]
    unfold Compiled.result
    cases (Parlance.compile file source).diagnostics <;> rfl

theorem compile_ok (hs : m.heap.Sound) (hroots : ∀ r ∈ m.roots.refs, m.heap.Live r)
    (h : (Parlance.compile file source).result = .ok p) :
    ∃ r, (m.compile file source).1 = .ok r ∧ (m.compile file source).2.heap.Live r ∧
      (m.compile file source).2.heap.LaidOut p r := by
  obtain ⟨r, hl, hr⟩ := compile_spec hs hroots file source
  rw [h] at hr
  rw [(Compiled.result_eq_ok.1 h).2] at hl
  exact ⟨r, hr, hl.live, hl.laid⟩

theorem Sound.compile_ok (hm : m.Sound) (h : (Parlance.compile file source).result = .ok p) :
    ∃ r, (m.compile file source).1 = .ok r ∧ (m.compile file source).2.heap.Live r ∧
      (m.compile file source).2.heap.LaidOut p r :=
  Machine.compile_ok hm.heap (fun _ hr => hm.roots hr) h

theorem Ready.compile_ok (hm : m.Ready V) (h : (Parlance.compile file source).result = .ok p) :
    ∃ r, (m.compile file source).1 = .ok r ∧ (m.compile file source).2.heap.Live r ∧
      (m.compile file source).2.heap.LaidOut p r :=
  hm.sound.compile_ok h

theorem compile_eq_ok {r : Ref} (h : (m.compile file source).1 = .ok r) :
    ∃ p, (Parlance.compile file source).result = .ok p := by
  rw [compile_fst] at h
  split at h
  · cases h
  · rename_i hempty _
    exact ⟨_, by rw [Compiled.result, hempty]; rfl⟩
  · cases h

theorem runFunction_ne_refused {turns : Nat} {r : Ref} {o : Outcome}
    (hrun : m.runFunction host turns file r = (o, m')) (ds : Diagnostics) : o ≠ .refused ds := by
  rintro rfl
  unfold runFunction at hrun
  split at hrun
  · cases hrun
  · unfold resume at hrun
    split at hrun <;> cases hrun

theorem Ready.leaves_vetted (hm : m.Ready V) (hhost : V.Hosts host) (turns : Nat)
    (file source : String) (hgood : ∀ p, (Parlance.compile file source).result = .ok p → V.good p) :
    Leaves V (m.run host turns file source) := by
  have hready := hm.compile file source
  unfold Machine.run
  cases hc : m.compile file source with
  | mk a m0 =>
    rw [hc] at hready
    cases a with
    | error ds => exact hready
    | ok r =>
      obtain ⟨p, hp⟩ := compile_eq_ok (congrArg Prod.fst hc)
      obtain ⟨r', hr', hl, hlaid⟩ := hm.sound.compile_ok hp
      rw [hc] at hr' hl hlaid
      cases hr'
      obtain ⟨-, hbare⟩ := compileTokens_spec hp
      exact hready.leaves_runFunction hhost turns file hl hlaid (hgood p hp) fun _ => hbare

/-- **A run of any source** leaves a machine that can go on or be used again, and does not end in a
fault. -/
theorem Ready.leaves_run (hm : m.Ready (Vetting.compiled host)) {turns : Nat} {o : Outcome}
    (h : m.run host turns file source = (o, m')) : Leaves (Vetting.compiled host) (o, m') := by
  rw [← h]
  exact hm.leaves_vetted (Vetting.hosts_compiled host) turns file source fun _ hp =>
    (compileTokens_spec hp).1

/-! ## Natives -/

/-- Binding a native leaves the machine ready. -/
theorem Ready.defineNative (hm : m.Ready V) (name : String) (arity : Int) (code : Nat)
    (hn : V.native ⟨name, arity, some code⟩) :
    ∃ r m', (Exec.defineNative name arity code) m = .ok r m' ∧ m'.Ready V := by
  obtain ⟨r, m', hdefine, hserves, -⟩ := hm.sound.serves_defineNative hn
  exact ⟨r, m', hdefine, hserves.sound, hserves.vetted hm.sound hm.vetted,
    hserves.frames_eq.trans hm.frames_eq, hserves.opens_eq.trans hm.opens_eq⟩

/-! ## Machines in use -/

/-- The machines that natives and runs lead to. The host can be trusted with each native; each run
has ended, well or not. -/
inductive Reached (host : Host) : Machine → Prop
  | new (settings : Settings) : Reached host (new settings)
  | native {m m' : Machine} {r : Ref} {name : String} {arity : Int} {code : Nat}
      (before : Reached host m) (trusted : (Vetting.compiled host).native ⟨name, arity, some code⟩)
      (bound : (Exec.defineNative name arity code) m = .ok r m') : Reached host m'
  | run {m m' : Machine} {turns : Nat} {file source : String} {o : Outcome} (before : Reached host m)
      (ran : m.run host turns file source = (o, m')) (ended : o ≠ .unfinished) : Reached host m'

theorem Reached.ready (hm : m.Reached host) : m.Ready (Vetting.compiled host) := by
  induction hm with
  | new settings => exact ready_new _ settings
  | @native m m' r name arity code _ trusted bound ih =>
    obtain ⟨r', m'', hdefine, hready⟩ := ih.defineNative name arity code trusted
    rw [bound] at hdefine
    cases hdefine
    exact hready
  | @run m m' turns file source o _ ran ended ih =>
    have hleaves := ih.leaves_run ran
    cases o with
    | unfinished => exact (ended rfl).elim
    | failed e => exact hleaves.1
    | finished => exact hleaves
    | refused ds => exact hleaves

theorem Reached.register {library : Native.Library} (hm : m.Reached library.host)
    {own : String} {code : Nat}
    {offer : Native.Offer} {arity : Int} (hoffer : library[code]? = some (own, offer))
    (harity : offer.arity = .ok arity) (htame : ∀ V, Tame V arity offer.toRoutine) (name : String) :
    ∃ r m', Exec.register library name code m = .ok (.ok r) m' ∧ m'.Reached library.host := by
  have hroutine : library.host[code]? = some offer.toRoutine := by simp [Native.Library.host, hoffer]
  have htrusted : (Vetting.compiled library.host).native ⟨name, arity, some code⟩ :=
    Vetting.compiled_native hroutine htame
  obtain ⟨r, m', hdefine, -⟩ := hm.ready.defineNative name arity code htrusted
  refine ⟨r, m', ?_, .native hm htrusted hdefine⟩
  have hneed : Exec.need library[code]? m = .ok (own, offer) m := by rw [hoffer]; rfl
  unfold Exec.register
  rw [Exec.run_bind hneed]
  simp only [harity]
  rw [Exec.run_bind hdefine]
  rfl

theorem Reached.registerAll {library : Native.Library} (names : List String)
    (hm : m.Reached library.host) (code : Nat)
    (hall : ∀ i < names.length, ∃ own offer arity, library[code + i]? = some (own, offer) ∧
      offer.arity = .ok arity ∧ ∀ V, Tame V arity offer.toRoutine) :
    ∃ m', Exec.registerAll library names code m = .ok () m' ∧ m'.Reached library.host := by
  induction names generalizing m code with
  | nil => exact ⟨m, rfl, hm⟩
  | cons name names ih =>
    obtain ⟨own, offer, arity, hoffer, harity, htame⟩ := hall 0 (Nat.zero_lt_succ _)
    rw [Nat.add_zero] at hoffer
    obtain ⟨r, m1, hregister, hm1⟩ := hm.register hoffer harity htame name
    obtain ⟨m', hrest, hm'⟩ := ih hm1 (code + 1) fun i hi => by
      obtain ⟨own, offer, arity, hoffer, h⟩ := hall (i + 1) (Nat.succ_lt_succ hi)
      exact ⟨own, offer, arity, by rw [← hoffer]; congr 1; omega, h⟩
    refine ⟨m', ?_, hm'⟩
    have hdiscard : discard (Exec.register library name code) m = .ok () m1 := by
      change EStateM.map _ _ m = _
      rw [EStateM.map, hregister]
    rw [Exec.registerAll, Exec.run_bind hdiscard]
    exact hrest

/-- The natives of the language can be bound where a library begins with them, whatever it offers
besides. -/
theorem Reached.loadBuiltins {more : Native.Library}
    (hm : m.Reached (Native.builtinLibrary ++ more).host) :
    ∃ m', Exec.loadBuiltins (Native.builtinLibrary ++ more) m = .ok () m' ∧
      m'.Reached (Native.builtinLibrary ++ more).host := by
  refine hm.registerAll _ 0 fun i hi => ?_
  rw [List.length_map] at hi
  have hmem : Native.builtins[i] ∈ Native.builtins := List.getElem_mem hi
  refine ⟨Native.builtins[i].name, .function Native.builtins[i].function, _, ?_, ?_, fun _ =>
    (Native.builtins_tame hmem).routine⟩
  · simp [Native.builtinLibrary, hi, Array.getElem?_append]
  · simp [Native.Offer.arity, Native.builtins_arity hmem, Except.map]

/-- An open variable is on the list of those, and its slot is below the top of the stack. -/
theorem Placed.open_lt (hm : m.Placed V) (hstrict : V.strict) {u : Ref} (hu : u ∈ m.openUpvalues) :
    ∃ x, m.heap.object? u = some (.upvalue x) ∧ x.isOpen = true ∧ x.slot < m.stack.depth := by
  obtain ⟨p, f, below, w, hat, -⟩ := hm
  obtain ⟨-, x, hx, hopen⟩ := hat.sound.opens.upvalue hu
  have hlt := hat.standing.open_lt hstrict u hu
  rw [Heap.slotAt_eq hx] at hlt
  exact ⟨x, hx, hopen, hlt⟩

end Machine

end Parlance
