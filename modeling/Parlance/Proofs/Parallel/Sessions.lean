/-
  Sessions of two machines side by side.
-/
import Parlance.Proofs.Parallel.Layout
import Parlance.Proofs.Parallel.Runs

namespace Parlance

-- no statement about runs looks into compilations
attribute [local irreducible] compileTokens

/-- What a host asks of a machine. The end of a run may be reported. -/
inductive Request
  | native (name : String) (arity : Int) (code : Nat)
  | source (file text : String) (reported : Bool)
  | image (file : String) (bytes : Array UInt8) (reported : Bool)

inductive Response
  | bound
  | ended (o : Outcome)
  | undecoded (e : Image.DecodeError)

/-- The run goes on. -/
def Response.isPending : Response → Bool
  | ended .unfinished => true
  | _ => false

namespace Machine

/-- A run has ended, and this is reported if it should be. -/
def conclude (m : Machine) (o : Outcome) : (reported : Bool) → Machine
  | true => m.report o
  | false => m

/-- Serves a request. A run has `turns` turns. -/
def serve (m : Machine) (host : Host) (turns : Nat) (q : Request) (S : Slots := .stack) :
    Response × Machine :=
  match q with
  | .native name arity code => match settle ((Exec.defineNative name arity code S).run m) with
    | (.ok _, m) => (.bound, m)
    | (.error e, m) => (.ended (.failed e), m)
  | .source file text reported => match m.run host turns file text S with
    | (o, m) => (.ended o, m.conclude o reported)
  | .image file bytes reported => match m.runImage host turns file bytes S with
    | (.ok o, m) => (.ended o, m.conclude o reported)
    | (.error e, m) => (.undecoded e, m)

/-- Serves requests in turn, as long as runs end. -/
def session (m : Machine) (host : Host) (turns : Nat) (qs : List Request) (S : Slots := .stack) :
    List Response × Machine :=
  match qs with
  | [] => ([], m)
  | q :: qs => match m.serve host turns q S with
    | (a, m) => if a.isPending then ([a], m) else match m.session host turns qs S with
      | (as, m) => (a :: as, m)

/-- The globals, with the type and the text of each. -/
def shownGlobals (m : Machine) : List (String × Option String × Option String) :=
  m.globals.entriesList.map fun e => (e.1.text, m.heap.typeName? e.2, m.heap.text? e.2)

end Machine

/-- The requests that vetted machines take. -/
def Vetting.Takes (V : Vetting) : Request → Prop
  | .native name arity code => V.native ⟨name, arity, some code⟩
  | .source file text _ => ∀ p, (compile file text).result = .ok p → V.good p
  | .image _ bytes _ => (∀ p : Proto, p.Admitted V.Stores) ∧
    ∀ p, Image.read bytes = .ok p → V.good p ∧ (V.strict → p.upvalueCount = 0)

variable {B : Bond} {V : Vetting} {β β' : Pairing} {m1 m2 : Machine} {host : Host}

/-! ## Natives -/

theorem Heap.Names.evolves {h h' : Heap} {R : List Ref} {k : Symbol} (hk : h.Names k)
    (he : h.Evolves R h') (hl : h'.Live k.ref) : h'.Names k :=
  ⟨hl, (he.object_eq hk.1 hl).trans hk.2⟩

/-- A name on the stack stays a name while an object is made and pushed. -/
theorem Slots.Pushed.names {S : Slots} (hS : S.Lawful) {k : Symbol} {m n o : Machine} {h : Heap}
    {made : Object} {r : Ref}
    (hp : S.Pushed (.object k.ref) m n) (hk : m.heap.Names k) (hn : n.Sound)
    (ha : n.heap.Allocated n.roots.refs made r h) (hq : S.Pushed (.object r) { n with heap := h } o)
    (ho : o.Sound) : o.heap.Names k := by
  have hmem : .object k.ref ∈ S.values n := hp.mem
  have hreach := hS.reach hn hmem
  have hnames := hk.evolves hp.evolves (hS.live hn hmem)
  have hlive : h.Live k.ref := ha.kept hreach
  have hstay : .object k.ref ∈ S.values o := by
    rw [hq.values_eq]
    refine List.mem_append_left _ ?_
    have heq : S.values { n with heap := h } = S.values n := hS.evolves hn ha.toEvolves
    rw [heq]
    exact hmem
  exact (hnames.evolves ha.toEvolves hlive).evolves hq.evolves (hS.live ho hstay)

theorem Exec.Along.defineNative (hB : B.Lawful) (hm : m1.Alike B none β m2)
    (hopens : m1.openUpvalues = []) (name : String) (arity : Int) (code : Nat) :
    Along B β (Exec.defineNative name arity code) (Exec.defineNative name arity code B.right) m1 m2
    (Still B) := by
  unfold Exec.defineNative
  -- the name is on the stack while the native is made
  obtain ⟨k, l, h1, h2, heq1, heq2, hi1, hi2, hm'⟩ := hm.intern hB name
  refine .from_le (β.le_add k.ref l.ref) (.bind_ok (intern_run heq1) (intern_run heq2) ?_)
  have hkl : k.Alike (β.add k.ref l.ref) l :=
    ⟨β.add_self _ _, hi1.text_eq.trans hi2.text_eq.symm, hi1.hash_eq.trans hi2.hash_eq.symm⟩
  have hk : h1.Names k := ⟨hi1.live_key, hi1.object_text⟩
  have hl : h2.Names l := ⟨hi2.live_key, hi2.object_text⟩
  obtain ⟨n1, n2, hp1, hp2, hn, hpushed1, hpushed2⟩ :=
    hB.push hm' ⟨.object hkl.ref, hk.1, hl.1⟩ fun _ => Machine.clear_of_nil hopens
  have hopens1 : n1.openUpvalues = [] := hpushed1.opens_eq.trans hopens
  refine .bind_ok hp1 hp2 ?_
  obtain ⟨r, s, g1, g2, hr, hs, ha1, ha2, hn'⟩ :=
    hn.allocate hB (.native ⟨name, arity, some code⟩) (by simp) (by simp)
    (by simp [Object.children]) (by simp [Object.children])
  refine .from_le (Pairing.le_add _ r s) (.bind_ok (allocate_run hr) (allocate_run hs) ?_)
  obtain ⟨o1, o2, hq1, hq2, ho, hnative1, hnative2⟩ :=
    hB.push hn' ⟨.object (Pairing.add_self _ _ _), ha1.live_new, ha2.live_new⟩
    fun _ => Machine.clear_of_nil hopens1
  refine .bind_ok hq1 hq2 ?_
  have hrs : Heap.Share ((β.add k.ref l.ref).add r s) o1.heap o2.heap (.object r) (.object s) :=
    ⟨.object (Pairing.add_self _ _ _),
    Slots.stack_lawful.live ho.sound₁ hnative1.mem, hB.right.live ho.sound₂ hnative2.mem⟩
  obtain ⟨-, hset⟩ := ho.setGlobal (hkl.mono (Pairing.le_add _ r s))
    (hpushed1.names Slots.stack_lawful hk hn.sound₁ ha1 hnative1 ho.sound₁)
    (hpushed2.names hB.right hl hn.sound₂ ha2 hnative2 ho.sound₂) hrs
  refine .bind_ok (x := modify _) (y := modify _) rfl rfl ?_
  refine Along.discardPop_bind hB hset (by simp) ?_
  intro d _ hcut
  refine Along.discardPop_bind hB hcut (by simp) ?_
  intro d' _ hcut'
  exact .pure hcut'

namespace Machine

/-! ## Requests -/

theorem Ready.conclude {m : Machine} (hm : m.Ready V) (o : Outcome) (reported : Bool) :
    (m.conclude o reported).Ready V := by
  cases reported with
  | false => exact hm
  | true =>
    unfold Machine.conclude Machine.report
    cases o.message? with
    | none => exact hm
    | some message => exact { hm with sound := { hm.sound with } }

theorem Alike.conclude (hm : m1.Alike B none β m2) (o : Outcome) (reported : Bool) :
    (m1.conclude o reported).Alike B none β (m2.conclude o reported) := by
  cases reported with
  | false => exact hm
  | true =>
    unfold Machine.conclude Machine.report
    cases o.message? with
    | none => exact hm
    | some message =>
      exact { hm with
        sound₁ := { hm.sound₁ with }
        sound₂ := { hm.sound₂ with }
        reports := congrArg (fun reports => reports ++ message ++ "\n") hm.reports }

section

variable (hB : B.Lawful) (hstrict : B.strict → V.strict) (hhost : B.Hosts host V) (hV : V.Hosts host)
  (hm : m1.Alike B none β m2) (hready : m1.Ready V)
include hB hstrict hhost hV hm hready

theorem Alike.run (file text : String)
    (hgood : ∀ p, (Parlance.compile file text).result = .ok p → V.good p)
    (turns : Nat) : ∃ β' : Pairing, (∀ {a b}, β a b → β' a b) ∧
      (m1.run host turns file text).1 = (m2.run host turns file text B.right).1 ∧
      (m1.run host turns file text).2.Alike B none β' (m2.run host turns file text B.right).2 := by
  obtain ⟨β', hle, hcompiled, hanswer⟩ := hm.compile hB file text
  have hready' := hready.compile file text
  unfold Machine.run
  cases hc1 : m1.compile file text with
  | mk a1 n1 =>
    cases hc2 : m2.compile file text with
    | mk a2 n2 =>
      rw [hc1] at hcompiled hanswer hready'
      rw [hc2] at hcompiled hanswer
      cases a1 with
      | error ds =>
        cases a2 with
        | error ds' => exact ⟨β', hle, congrArg Outcome.refused hanswer, hcompiled⟩
        | ok s => exact hanswer.elim
      | ok r =>
        cases a2 with
        | error ds' => exact hanswer.elim
        | ok s =>
          obtain ⟨p, hp⟩ := compile_eq_ok (congrArg Prod.fst hc1)
          obtain ⟨r', hr', hlr, hlaid⟩ := hm.sound₁.compile_ok hp
          obtain ⟨s', hs', hls, -⟩ := hm.sound₂.compile_ok hp
          rw [hc1] at hr' hlr hlaid
          rw [hc2] at hs' hls
          cases hr'
          cases hs'
          obtain ⟨β'', hle', hrest⟩ :=
            Alike.runFunction hB hstrict hhost hV hcompiled hready' ⟨hanswer, hlr, hls⟩ hlaid
            (hgood p hp) (fun _ => (compileTokens_spec hp).2) turns file
          exact ⟨β'', fun h => hle' (hle h), hrest⟩

theorem Alike.runImage {bytes : Array UInt8} (hadmitted : ∀ p : Proto, p.Admitted V.Stores)
    (hgood : ∀ p, Image.read bytes = .ok p → V.good p ∧ (V.strict → p.upvalueCount = 0))
    (turns : Nat) (file : String) : ∃ β' : Pairing, (∀ {a b}, β a b → β' a b) ∧
      (m1.runImage host turns file bytes).1 = (m2.runImage host turns file bytes B.right).1 ∧
      (m1.runImage host turns file bytes).2.Alike B none β'
      (m2.runImage host turns file bytes B.right).2 := by
  unfold Machine.runImage
  cases hread : Image.read bytes with
  | error fault =>
    obtain ⟨e, begun⟩ := fault
    cases begun with
    | none => exact ⟨β, fun h => h, rfl, hm⟩
    | some p =>
      obtain ⟨β', hle, hloaded, -⟩ := hm.load hB p
      exact ⟨β', hle, rfl, hloaded⟩
  | ok p =>
    obtain ⟨β', hle, hloaded, hrs⟩ := hm.load hB p
    obtain ⟨hready', -, hlaid⟩ := hready.load (hadmitted p)
    obtain ⟨β'', hle', hanswer, hdone⟩ :=
      Alike.runFunction hB hstrict hhost hV hloaded hready' hrs hlaid (hgood p hread).1
      (hgood p hread).2 turns file
    exact ⟨β'', fun h => hle' (hle h), congrArg Except.ok hanswer, hdone⟩

/-- **A request** is answered alike. Unless its run goes on, the machines can take the next one. -/
theorem Alike.serve {q : Request} (hq : V.Takes q) (turns : Nat) :
    ∃ β' : Pairing, (∀ {a b}, β a b → β' a b) ∧
    (m1.serve host turns q).1 = (m2.serve host turns q B.right).1 ∧
    (m1.serve host turns q).2.Alike B none β' (m2.serve host turns q B.right).2 ∧
    ((m1.serve host turns q).1.isPending = false → (m1.serve host turns q).2.Ready V) := by
  cases q with
  | native name arity code =>
    obtain ⟨r, n1, hdefine, hready'⟩ := hready.defineNative name arity code hq
    have hsync := Exec.Along.defineNative hB hm hready.opens_eq name arity code
    unfold Exec.Along Exec.Sync at hsync
    simp only [Machine.serve, EStateM.run]
    rw [hdefine] at hsync ⊢
    cases hright : Exec.defineNative name arity code B.right m2 with
    | ok s n2 =>
      rw [hright] at hsync
      obtain ⟨β', hle, hn⟩ := hsync
      exact ⟨β', hle, rfl, hn, fun _ => hready'⟩
    | error e n2 =>
      rw [hright] at hsync
      exact hsync.elim
  | source file text reported =>
    obtain ⟨β', hle, hanswer, hdone⟩ := hm.run hB hstrict hhost hV hready file text hq turns
    have hleaves := hready.leaves_vetted hV turns file text hq
    simp only [Machine.serve]
    revert hanswer hdone hleaves
    generalize m1.run host turns file text = s1
    generalize m2.run host turns file text B.right = s2
    obtain ⟨o, n1⟩ := s1
    obtain ⟨o', n2⟩ := s2
    rintro rfl hdone hleaves
    dsimp only at hdone ⊢
    refine ⟨β', hle, rfl, hdone.conclude o reported, fun hended => ?_⟩
    refine (hleaves.ready ?_).conclude o reported
    rintro rfl
    cases hended
  | image file bytes reported =>
    obtain ⟨β', hle, hanswer, hdone⟩ := hm.runImage hB hstrict hhost hV hready hq.1 hq.2 turns file
    have hleaves := hready.leaves_decoded hV turns file hq.1 hq.2
    simp only [Machine.serve]
    revert hanswer hdone hleaves
    generalize m1.runImage host turns file bytes = s1
    generalize m2.runImage host turns file bytes B.right = s2
    obtain ⟨a, n1⟩ := s1
    obtain ⟨a', n2⟩ := s2
    rintro rfl hdone hleaves
    dsimp only at hdone
    cases a with
    | error e => exact ⟨β', hle, rfl, hdone, fun _ => hleaves⟩
    | ok o =>
      refine ⟨β', hle, rfl, hdone.conclude o reported, fun hended => ?_⟩
      refine (Leaves.ready (s := (o, n1)) hleaves ?_).conclude o reported
      rintro rfl
      cases hended

end

/-- **Machines that are alike give the same answers to the same requests**, and stay alike. -/
theorem Alike.session (hB : B.Lawful) (hstrict : B.strict → V.strict) (hhost : B.Hosts host V)
    (hV : V.Hosts host) (hm : m1.Alike B none β m2) (hready : m1.Ready V) {qs : List Request}
    (hqs : ∀ q ∈ qs, V.Takes q)
    (turns : Nat) :
    ∃ β' : Pairing, (m1.session host turns qs).1 = (m2.session host turns qs B.right).1 ∧
      (m1.session host turns qs).2.Alike B none β' (m2.session host turns qs B.right).2 := by
  induction qs generalizing β m1 m2 with
  | nil => exact ⟨β, rfl, hm⟩
  | cons q qs ih =>
    obtain ⟨β', -, hanswer, hdone, hready'⟩ :=
      hm.serve hB hstrict hhost hV hready (hqs q List.mem_cons_self) turns
    unfold Machine.session
    revert hanswer hdone hready'
    generalize m1.serve host turns q = s1
    generalize m2.serve host turns q B.right = s2
    obtain ⟨a, n1⟩ := s1
    obtain ⟨a', n2⟩ := s2
    rintro rfl hdone hready'
    cases hpending : a.isPending with
    | true =>
      simp only [hpending, if_true]
      exact ⟨β', trivial, hdone⟩
    | false =>
      obtain ⟨β'', hrest, hdone'⟩ :=
        ih hdone (hready' hpending) fun q' hq' => hqs q' (List.mem_cons_of_mem q hq')
      simp only [hpending, Bool.false_eq_true, if_false]
      exact ⟨β'', congrArg (a :: ·) hrest, hdone'⟩

theorem Alike.shownGlobals_eq (hm : m1.Alike B none β m2) : m1.shownGlobals = m2.shownGlobals := by
  have hpaired := hm.globals_live.entriesList
  unfold shownGlobals
  generalize m1.globals.entriesList = l at hpaired ⊢
  generalize m2.globals.entriesList = l' at hpaired ⊢
  induction hpaired with
  | nil => rfl
  | cons he _ ih =>
    obtain ⟨⟨hkl, -, -⟩, hvw⟩ := he
    rw [List.map_cons, List.map_cons, ih, hkl.text, hm.heap.typeName?_eq hvw.alike hvw.left hvw.right,
      hm.heap.text?_eq hm.sound₁.heap hm.sound₂.heap hvw.alike hvw.left hvw.right]

end Machine

variable (hV : V.Hosts host)
  (hblind : ∀ {n routine}, V.native n → n.code.bind (host[·]?) = some routine →
    B.Blind n.arity routine)
include hV hblind

theorem Bond.hosts : B.Hosts host V where
  blind := hblind
  serves {n routine argc r m m'} hn hroutine hm hreadable hargc hlen hrun := by
    have heq : (m.stack.toList.drop (m.stack.depth - argc)).length = argc := by
      rw [List.length_drop, hm.length_stack]
      omega
    have htame := hV.tame hn hroutine n.name _ m hm hreadable (by rw [heq, Stack.top?_eq hargc])
      (heq.symm ▸ hlen)
    rw [hrun, heq] at htame
    exact htame.1

/-- **New machines give the same answers to the same requests**, and show the same in the end. -/
theorem Bond.Lawful.session_new (hB : B.Lawful) (hstrict : B.strict → V.strict)
    (settings : Settings) (collections : HeapSettings) (clock : Nat) (seed : UInt64)
    (hjoined : ∀ h1 h2, B.joins none (fun _ _ => False) ⟨h1, {}, []⟩ ⟨h2, {}, []⟩) (turns : Nat)
    {qs : List Request} (hqs : ∀ q ∈ qs, V.Takes q) :
    let s := Machine.session { Machine.new settings with clock, seed } host turns qs
    let t := Machine.session { Machine.new { settings with heap := collections } with clock, seed }
      host turns qs B.right
    s.1 = t.1 ∧ s.2.out = t.2.out ∧ s.2.reports = t.2.reports ∧
      s.2.shownGlobals = t.2.shownGlobals := by
  have hsound : ∀ settings, Machine.Sound { Machine.new settings with clock, seed } := fun settings =>
    { Machine.sound_new settings with }
  have hnil : ∀ settings, B.right.values { Machine.new settings with clock, seed } = [] :=
    fun settings => List.eq_nil_of_length_eq_zero (hB.right.length (hsound settings))
  have hnew : Machine.Alike B none (fun _ _ => False) { Machine.new settings with clock, seed }
      { Machine.new { settings with heap := collections } with clock, seed } :=
    { printCode := rfl, traceExecution := rfl, maxFrames := rfl, interrupted := rfl
      file := rfl, out := rfl, reports := rfl, clock := rfl, seed := rfl
      sound₁ := hsound settings
      sound₂ := hsound _
      heap := .empty _ _ _
      depth := rfl
      values := by rw [hnil]; exact .nil
      frames := .nil
      globals := Table.paired_empty
      joined := hjoined _ _ }
  obtain ⟨β, hanswers, hdone⟩ := hnew.session hB hstrict (Bond.hosts hV hblind) hV
    { Machine.ready_new V settings with sound := hsound settings } hqs turns
  exact ⟨hanswers, hdone.out, hdone.reports, hdone.shownGlobals_eq⟩

end Parlance
