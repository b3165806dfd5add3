/-
  Runs of two machines side by side.
-/
import Parlance.Proofs.Code.Listings
import Parlance.Proofs.Parallel.Steps

namespace Parlance

open Machine (Alike)
open Heap (idle)

variable {B : Bond} {β β' : Pairing} {m1 m2 : Machine} {V : Vetting} {host : Host}

namespace Exec

/-! ## Notes -/

theorem Along.noteInstruction (hB : B.Lawful) (hm : m1.Alike B none β m2) :
    Along B β Exec.noteInstruction (Exec.noteInstruction B.right) m1 m2 (Still B) := by
  unfold Exec.noteInstruction
  refine .get_bind ?_
  refine (hm.foldlM_text (fun acc t => acc ++ "[ " ++ t ++ " ]") hm.values
    (fun v h => Slots.stack_lawful.live hm.sound₁ h) (fun w h => hB.right.live hm.sound₂ h)
    _).sync_bind hm ?_
  rintro shown _ rfl
  refine Along.frame_bind hm fun {f g F G} hfg hFG hF hG => ?_
  have hlist : listInstruction? m1.heap.pool F.chunk f.ip = listInstruction? m2.heap.pool
      G.chunk g.ip := by
    rw [hfg.ip]
    refine congrFun
      (Chunk.Alike.listInstruction?_eq ⟨hFG.code, hFG.lines, fun i => ?_, fun i => ?_⟩) g.ip
    · have hrel := hm.constant hFG hF hG i
      generalize F.chunk.constants[i]? = x at hrel
      generalize G.chunk.constants[i]? = y at hrel
      cases hrel with
      | none => rfl
      | some h =>
        obtain ⟨hvw, -⟩ := h
        simp only [Option.map_some, Heap.pool, hm.heap.text?_eq hm.sound₁.heap hm.sound₂.heap
          hvw.alike hvw.left hvw.right]
    · have hrel := hm.constant hFG hF hG i
      generalize F.chunk.constants[i]? = x at hrel
      generalize G.chunk.constants[i]? = y at hrel
      cases hrel with
      | none => rfl
      | some h =>
        obtain ⟨⟨halike, hl, hr⟩, -⟩ := h
        cases halike with
        | @object a b hab =>
          have hrel := hm.heap.function?_rel hab hl hr
          simp only [Option.bind_some, Heap.pool]
          generalize m1.heap.function? a = x at hrel
          generalize m2.heap.function? b = y at hrel
          cases hrel with
          | none => rfl
          | some h => simp only [Option.map_some, h.upvalueCount]
        | _ => rfl
  refine (Reads.need (rel_of_eq hlist)).sync_bind hm ?_
  rintro ⟨line, next⟩ _ rfl
  exact .of_ok rfl rfl id (hm.agrees hB (Heap.agrees_note ..) (Heap.agrees_note ..))

end Exec

/-! ## Vetted code -/

/-- Vetted code has what instructions rely on. -/
theorem Machine.Doing.primed {m : Machine} {p : Proto} {f : Frame} {below : Array Frame}
    {w : Window} {op : Op} (hm : m.Doing V p f below w op) : Exec.Primed V.strict op m := by
  have hdepth := hm.depth
  have hroom := hm.fits.room
  have hback : m.frames.back? = some { f with ip := f.ip + 1 } := by
    rw [hm.at_.frames_eq, Array.back?_push]
  have hkept : V.strict → op ≠ .closeUpvalue → m.Clear (m.stack.depth - p.chunk.pops op f.ip) := by
    intro hs hclose r hr
    by_cases hge : f.base ≤ m.heap.slotAt r
    · have := ((hm.kept hclose).opened hs r hr hge).2.1
      simp only at this
      omega
    · omega
  refine ⟨fun hs => hm.at_.standing.open_lt hs, fun hs hclose hcall => ?_, fun hs hop b n hb => ?_,
    ?_, fun _ g hg => ?_⟩
  · by_cases hprint : op = .print
    · subst hprint
      exact hm.at_.standing.open_lt hs
    · have heq : p.chunk.pops op f.ip = (stackEffect op 0).1 := by
        cases op <;> first | rfl | exact (hcall rfl).elim | exact (hprint rfl).elim
      exact heq ▸ hkept hs hclose
  · subst hop
    obtain ⟨hbyte, -⟩ := Exec.readByte_spec hm.at_.runs hback hb
    have heq : p.chunk.pops .call f.ip = b.toNat + 1 := by
      have hbyte' : p.chunk.code[f.ip + 1]? = some b := hbyte
      simp [Chunk.pops, stackEffect, Chunk.byte, hbyte']
    have := hkept hs (by decide)
    rw [heq] at this
    exact this.mono (by omega)
  · rintro hs rfl v n r F g hconstant rfl hF hg k hframes hk hruns
    obtain ⟨q, hq⟩ := hm.fits.operand
    obtain ⟨v', low, hread, ⟨hvalue, hnested⟩, -⟩ :=
      hm.readConstant (by decide) (Chunk.constants_of_callee? hq)
    rw [hconstant] at hread
    cases hread
    obtain ⟨G, hG, -, -, hup, -⟩ := Heap.laidOut_iff.1 (hnested q r rfl rfl)
    obtain rfl : F = G := Option.some.inj (hF.symm.trans (Heap.function?_of_object? hG))
    rw [Array.back?_push] at hg
    cases hg
    have hsane := (V.tidy hs hm.at_.good hm.chart hm.op_eq).sane
    have hcount : p.chunk.captureCount f.ip = F.upvalueCount.toNat := by
      simp [Chunk.captureCount, hq, hup]
    refine ⟨p, f.ip + 1 + 1, hruns hm.at_.runs, by rw [hframes, Array.back?_push],
      fun j hj b hone hb => ?_⟩
    have hfit := (hm.fits.captures hsane rfl j (hcount ▸ hj)).2
    have hone' : p.chunk.code[f.ip + 2 + 2 * j]? = some 1 := hone
    have hb' : p.chunk.code[f.ip + 3 + 2 * j]? = some b := by
      rw [show f.ip + 3 + 2 * j = f.ip + 1 + 1 + 2 * j + 1 by omega]
      exact hb
    simp only [Chunk.byte, hone', hb', Option.map_some, Option.getD_some] at hfit
    have := hfit rfl
    simp only
    omega
  · rw [hback] at hg
    cases hg
    exact hm.base_lt

namespace Exec

theorem pushed_closure {S : Slots} (hS : S.Lawful) {x r : Ref} {us : Array (Option Ref)}
    {m n : Machine} (h : S.Pushed (.object x) m n) (hn : n.Sound) (hl : m.heap.Live x)
    (hx : m.heap.object? x = some (.closure (some r) us)) : n.heap.Live x ∧ n.heap.Live r := by
  have hlive : n.heap.Live x := hS.live hn h.mem
  exact ⟨hlive, hn.heap.closed hlive ((h.evolves.object_eq hl hlive).trans hx) r
    (by simp [Object.children])⟩

/-- **The beginning of a run keeps the machines alike.** -/
theorem Along.start (hB : B.Lawful) (hm : m1.Alike B none β m2)
    (hopens : m1.openUpvalues = []) {r s : Ref}
    (hrs : m1.Pairs β m2 r s) : Along B β (Exec.start r) (Exec.start s B.right) m1 m2 (Still B) := by
  unfold Exec.start
  refine .bind_ok (x := modify _) (y := modify _) rfl rfl ?_
  -- the function is on the stack while its closure is made
  obtain ⟨n1, n2, hp1, hp2, hn, hpushed1, hpushed2⟩ := hB.push (hm.interrupted_eq false)
    ⟨.object hrs.paired, hrs.left, hrs.right⟩ fun _ => Machine.clear_of_nil hopens
  have hopens1 : n1.openUpvalues = [] := hpushed1.opens_eq.trans hopens
  refine .bind_ok hp1 hp2 ?_
  refine (Along.newClosure hB hn hrs.paired (Slots.stack_lawful.reach hn.sound₁ hpushed1.mem)
    (hB.right.reach hn.sound₂ hpushed2.mem)).bind ?_
  rintro β' x y _ _ hle ⟨hn', hxy, ⟨F, h1, -, rfl, ha1⟩, ⟨us, h2, rfl, ha2⟩⟩
  refine Along.discardPop_bind hB hn' (by simp) ?_
  intro d _ hcut
  obtain ⟨k1, k2, hq1, hq2, hk, hclosure1, hclosure2⟩ :=
    hB.push hcut ⟨.object hxy, ha1.live_new, ha2.live_new⟩
    fun _ => Machine.clear_of_nil hopens1
  refine .bind_ok hq1 hq2 ?_
  obtain ⟨hlx, hlr⟩ :=
    pushed_closure Slots.stack_lawful hclosure1 hk.sound₁ ha1.live_new ha1.object_new
  obtain ⟨hly, hls⟩ := pushed_closure hB.right hclosure2 hk.sound₂ ha2.live_new ha2.object_new
  exact Along.enterCall hB hk (fun _ => Machine.clear_of_nil (hclosure1.opens_eq.trans hopens1)) ⟨hxy, hlx, hly⟩
    (.some ⟨hle hrs.paired, hlr, hls⟩) 0

/-! ## Turns -/

variable (hB : B.Lawful) (hstrict : B.strict → V.strict) (hhost : B.Hosts host V)
include hB hstrict hhost

theorem Along.readAndPerform (hm : m1.Alike B none β m2) (hp : m1.Placed V) : Along B β
      (Exec.readByte >>= fun byte => match Op.ofByte? byte with
        | some op => Exec.perform host op
        | none => Exec.raise (.unknownInstruction byte))
      (Exec.readByte >>= fun byte => match Op.ofByte? byte with
        | some op => Exec.perform host op B.right
        | none => Exec.raise (.unknownInstruction byte) B.right) m1 m2 (Goes B) := by
  obtain ⟨p, f, below, w, hat, hchart, hdepth⟩ := hp
  obtain ⟨op, hfits⟩ := (V.charted hat.good hat.arity.1 hat.arity.2).fits hchart
  obtain ⟨hlt, hbyte⟩ := Chunk.op?_eq_some hfits.op_eq
  have hlt' : f.ip < p.code.size := hlt
  have hread := Exec.readByte_eq hat.frames_eq hat.runs hbyte
  refine Along.readByte_bind hm ?_
  intro b ip hm' hb
  rw [hread] at hb
  obtain ⟨rfl, hmachine⟩ := EStateM.Result.ok.inj hb
  have hdoing : (m1.jumped ip).Doing V p f below w op := by
    rw [← hmachine]
    exact ⟨hat.moveTo (by omega), hchart, hfits.op_eq, hdepth⟩
  have hprimed := hdoing.primed
  simp only [Op.ofByte?_toByte]
  refine Along.perform hB hm' hhost ⟨hdoing.at_.vetted.native, hdoing.at_.vetted.readable⟩ ?_
  exact ⟨fun hs => hprimed.clear (hstrict hs), fun hs => hprimed.taken (hstrict hs),
    fun hs => hprimed.call (hstrict hs), fun hs => hprimed.closure (hstrict hs), hprimed.base⟩

/-- **A turn keeps the machines alike.** -/
theorem Along.step (hm : m1.Alike B none β m2) (hp : m1.Placed V) :
    Along B β (Exec.step host) (Exec.step host B.right) m1 m2 (Goes B) := by
  unfold Exec.step
  refine .get_bind ?_
  rw [hm.interrupted]
  split
  · refine .bind_ok (x := modify _) (y := modify _) rfl rfl ?_
    obtain ⟨p, f, below, w, hat, -⟩ := hp
    exact Along.raise_bind hB (hm.interrupted_eq false) (fun hs => hat.standing.open_lt (hstrict hs)) _
  · refine .get_bind ?_
    rw [hm.traceExecution]
    split
    · refine (Along.noteInstruction hB hm).with_left.bind ?_
      rintro β' _ _ n1 n2 - ⟨hn, hleft⟩
      exact Along.readAndPerform hB hstrict hhost hn (hp.noteInstruction.of_run hleft).1
    · exact Along.readAndPerform hB hstrict hhost hm hp

/-- **So does any number of turns.** -/
theorem Along.runFor (hV : V.Hosts host) (hm : m1.Alike B none β m2) (hp : m1.Placed V) (turns : Nat) :
    Along B β (Exec.runFor host turns) (Exec.runFor host turns B.right) m1 m2
      fun β' done done' n1 n2 =>
      done = done' ∧ n1.Alike B none β' n2 := by
  induction turns generalizing β m1 m2 with
  | zero => exact .pure ⟨rfl, hm⟩
  | succ turns ih =>
    unfold Exec.runFor
    refine (Along.step hB hstrict hhost hm hp).with_left.bind ?_
    rintro β' progress _ n1 n2 - ⟨⟨rfl, hn⟩, hleft⟩
    have hgoes := (hp.step hV).of_run hleft
    cases progress with
    | running => exact ih hn hgoes
    | finished => exact .pure ⟨rfl, hn⟩

end Exec

/-! ## Outcomes -/

namespace Machine

/-- Both computations have come to corresponding answers, or to the same error; the machines can be
used on. -/
theorem Alike.settle {α α' : Type} (hB : B.Lawful) (hstrict : B.strict → V.strict) {x : Exec α}
    {x' : Exec α'}
    {Q : Pairing → α → α' → Machine → Machine → Prop} {P : α → Machine → Prop}
    (h : Exec.Along B β x x' m1 m2 Q)
    (hmeets : Exec.Meets V x m1 P) : ∃ β' : Pairing, (∀ {a b}, β a b → β' a b) ∧
      match Machine.settle (x.run m1), Machine.settle (x'.run m2) with
      | (.ok a, n1), (.ok a', n2) => Q β' a a' n1 n2 ∧ P a n1
      | (.error e, n1), (.error e', n2) => e = e' ∧ n1.Alike B none β' n2
      | _, _ => False := by
  unfold Exec.Along Exec.Sync at h
  unfold Exec.Meets at hmeets
  simp only [EStateM.run]
  revert h hmeets
  cases x m1 with
  | ok a n1 =>
    cases x' m2 with
    | ok a' n2 =>
      rintro ⟨β', hle, hQ⟩ hP
      exact ⟨β', hle, hQ, hP⟩
    | error e' n2 => exact False.elim
  | error e n1 =>
    cases x' m2 with
    | ok a' n2 => exact False.elim
    | error e' n2 =>
      rintro ⟨rfl, β', hle, hn⟩ hends
      refine ⟨β', hle, ?_⟩
      cases e with
      | failed e => exact ⟨rfl, hn⟩
      | fault f => exact ⟨by rw [hn.file], hB.abandon (fun hs => hends.1 (hstrict hs)) hn⟩

section Runs

variable (hB : B.Lawful) (hstrict : B.strict → V.strict) (hhost : B.Hosts host V) (hV : V.Hosts host)
include hB hstrict hhost hV

theorem Alike.resume (hm : m1.Alike B none β m2) (hp : m1.Placed V) (turns : Nat) : ∃ β' : Pairing,
    (∀ {a b}, β a b → β' a b) ∧ (m1.resume host turns).1 = (m2.resume host turns B.right).1 ∧
      (m1.resume host turns).2.Alike B none β' (m2.resume host turns B.right).2 := by
  have hrun := hp.runFor hV turns
  obtain ⟨β', hle, hrest⟩ :=
    Alike.settle hB hstrict (Exec.Along.runFor hB hstrict hhost hV hm hp turns) hrun
  refine ⟨β', hle, ?_⟩
  unfold Machine.resume
  revert hrest
  generalize Machine.settle ((Exec.runFor host turns).run m1) = s1
  generalize Machine.settle ((Exec.runFor host turns B.right).run m2) = s2
  obtain ⟨a, n1⟩ := s1
  obtain ⟨a', n2⟩ := s2
  cases a with
  | error e =>
    cases a' with
    | error e' =>
      rintro ⟨rfl, hn⟩
      exact ⟨rfl, hn⟩
    | ok _ => exact False.elim
  | ok done =>
    cases a' with
    | error e' => exact False.elim
    | ok done' =>
      rintro ⟨⟨rfl, hn⟩, -⟩
      cases done <;> exact ⟨rfl, hn⟩

/-- **Corresponding functions come to the same outcome.** -/
theorem Alike.runFunction (hm : m1.Alike B none β m2) (hready : m1.Ready V) {r s : Ref}
    (hrs : m1.Pairs β m2 r s) {p : Proto} (hlaid : m1.heap.LaidOut p r) (hgood : V.good p)
    (hbare : V.strict → p.upvalueCount = 0) (turns : Nat) (file : String) :
    ∃ β' : Pairing, (∀ {a b}, β a b → β' a b) ∧
      (m1.runFunction host turns file r).1 = (m2.runFunction host turns file s B.right).1 ∧
      (m1.runFunction host turns file r).2.Alike B none β'
      (m2.runFunction host turns file s B.right).2 := by
  have hm' : Alike B none β { m1 with file } { m2 with file } :=
    { hm with
      sound₁ := { hm.sound₁ with }
      sound₂ := { hm.sound₂ with }
      file := rfl }
  have hready' : Ready V { m1 with file } := { hready with sound := { hready.sound with } }
  have hstart := hready'.start hrs.left hlaid hgood hbare
  obtain ⟨β', hle, hbegun⟩ :=
    Alike.settle hB hstrict (Exec.Along.start hB hm' hready.opens_eq hrs) hstart
  unfold Machine.runFunction Machine.begin
  revert hbegun
  generalize Machine.settle ((Exec.start r).run { m1 with file }) = s1
  generalize Machine.settle ((Exec.start s B.right).run { m2 with file }) = s2
  obtain ⟨a, n1⟩ := s1
  obtain ⟨a', n2⟩ := s2
  cases a with
  | error e =>
    cases a' with
    | error e' =>
      rintro ⟨rfl, hn⟩
      exact ⟨β', hle, rfl, hn⟩
    | ok _ => exact False.elim
  | ok _ =>
    cases a' with
    | error e' => exact False.elim
    | ok _ =>
      rintro ⟨hn, hplaced⟩
      obtain ⟨β'', hle', hrest⟩ := Alike.resume hB hstrict hhost hV hn hplaced turns
      exact ⟨β'', fun h => hle' (hle h), hrest⟩

end Runs

end Machine

end Parlance
