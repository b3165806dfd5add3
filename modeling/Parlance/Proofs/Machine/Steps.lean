/-
  One turn of the machine on vetted code.
-/
import Parlance.Proofs.Machine.Instructions

namespace Parlance

variable {g : Frame}

open Heap (idle)

/-! ## Natives -/

/-- Every value has a text. -/
def Heap.Readable (h : Heap) : Prop := ∀ {v : Value}, h.LiveValue v → h.text? v ≠ none

/-- What a routine of the host may do to a machine on which the values from slot `low` on are its
own. It may push and pop, write to what it is given, bind globals, print, and add objects and change
them as long as they are vetted. The calls and the open variables it leaves as they are. -/
structure Machine.Serves (V : Vetting) (low : Nat) (m m' : Machine) : Prop where
  sound : m'.Sound
  steady : m.heap.Steady m'.heap
  vets : ∀ {x o}, m'.heap.Live x → m'.heap.object? x = some o →
    m.heap.Live x ∧ m.heap.object? x = some o ∨ m'.heap.Vets V idle x o
  low_le : low ≤ m'.stack.depth
  frames_eq : m'.frames = m.frames
  opens_eq : m'.openUpvalues = m.openUpvalues

/-- A routine that keeps a machine going: called with as many arguments as it takes, which are on
top of the stack, it serves the machine, and answers with a value or a message. It gives up only if
the vetting is not strict. -/
def Tame (V : Vetting) (arity : Int) (routine : Routine) : Prop :=
  ∀ name vs (m : Machine), m.Sound → m.heap.Readable → m.stack.top? vs.length = some vs →
    (0 ≤ arity → (vs.length : Int) = arity) →
    match routine name vs m with
    | .ok r m' => m.Serves V (m.stack.depth - vs.length - 1) m' ∧ ∀ v, r = .ok v → m'.heap.LiveValue v
    | .error (.fault _) m' => ¬ V.strict ∧ m.Serves V (m.stack.depth - vs.length - 1) m'
    | .error (.failed _) _ => False

theorem Tame.mono {V : Vetting} {N : Native → Prop} {arity : Int} {routine : Routine}
    (ht : Tame { V with native := N } arity routine) (hN : ∀ k, N k → V.native k) :
    Tame V arity routine := by
  have hserves : ∀ {low : Nat} {m m' : Machine}, m.Serves { V with native := N } low m' →
    m.Serves V low m' :=
    fun hs => { hs with vets := fun hl ho => (hs.vets hl ho).imp id fun hx => hx.mono hN }
  intro name vs m hs hr hvs hlen
  have htame := ht name vs m hs hr hvs hlen
  revert htame
  cases routine name vs m with
  | ok r m' => exact And.imp hserves id
  | error e m' =>
    cases e with
    | failed e => exact id
    | fault e => exact And.imp id hserves

/-- The host has tame routines behind the vetted natives. -/
structure Vetting.Hosts (V : Vetting) (host : Host) : Prop where
  tame : ∀ {n routine}, V.native n → n.code.bind (host[·]?) = some routine → Tame V n.arity routine
  known : V.strict → ∀ {n}, V.native n → n.code.bind (host[·]?) ≠ none

/-- The host can be trusted with the native: it is one of a set of natives whose routines have the
property `P` and are tame while they add natives of the set only. If the vetting is strict, there
are such routines. -/
def Vetting.Trusts (V : Vetting) (host : Host) (P : Int → Routine → Prop) (n : Native) : Prop :=
  ∃ N : Native → Prop, N n ∧ ∀ k, N k → (V.strict → k.code.bind (host[·]?) ≠ none) ∧
    ∀ routine, k.code.bind (host[·]?) = some routine →
      Tame { V with native := N } k.arity routine ∧ P k.arity routine

namespace Vetting

variable {V : Vetting} {N : Native → Prop} {host : Host} {P : Int → Routine → Prop} {n : Native}
  {routine : Routine}

theorem trusts_of_tame (hroutine : n.code.bind (host[·]?) = some routine)
    (htame : Tame { V with native := (· = n) } n.arity routine) (hP : P n.arity routine) :
    V.Trusts host P n := by
  refine ⟨(· = n), rfl, ?_⟩
  rintro _ rfl
  refine ⟨fun _ => by simp [hroutine], fun routine' hroutine' => ?_⟩
  rw [hroutine] at hroutine'
  cases hroutine'
  exact ⟨htame, hP⟩

/-- A native without a routine does nothing. -/
theorem trusts_of_none (hnot : ¬ V.strict) (hn : n.code = none) : V.Trusts host P n :=
  ⟨(·.code = none), hn, fun k hk => ⟨fun h => (hnot h).elim, fun _ h => by simp [hk] at h⟩⟩

/-- The functions and charts of `V`, and the natives that the host can be trusted with. -/
def trusting (V : Vetting) (host : Host) (P : Int → Routine → Prop) : Vetting :=
  { V with native := V.Trusts host P }

theorem hosts_trusting (V : Vetting) (host : Host) (P : Int → Routine → Prop) :
    (V.trusting host P).Hosts host where
  tame {n routine} hn hroutine := by
    obtain ⟨N, hmem, hall⟩ := hn
    have htame := ((hall n hmem).2 routine hroutine).1
    exact Tame.mono (V := V.trusting host P) htame fun k hk => ⟨N, hk, hall⟩
  known hstrict n hn := by
    obtain ⟨N, hmem, hall⟩ := hn
    exact (hall n hmem).1 hstrict

theorem Trusts.property (hn : V.Trusts host P n)
    (hroutine : n.code.bind (host[·]?) = some routine) : P n.arity routine := by
  obtain ⟨N, hmem, hall⟩ := hn
  exact ((hall n hmem).2 routine hroutine).2

end Vetting

theorem Heap.Vetted.readable {V : Vetting} {h : Heap} {busy : Ref → Prop} (hv : h.Vetted V busy) :
    h.Readable := by
  intro v hl hnone
  let m : Machine := { settings := default, heap := h }
  obtain ⟨s, hs⟩ := Exec.exists_text (m := m) hv hl
  have hdef : Exec.text v m = Exec.need (h.text? v) m := rfl
  rw [hdef, hnone] at hs
  cases hs

namespace Machine

variable {m' : Machine} {V : Vetting} {busy : Ref → Prop} {p : Proto} {f : Frame}
  {below : Array Frame} {O : Nat → Prop} {m : Machine} {w : Window} {op : Op} {host : Host}

/-! ## Calls -/

theorem Serves.vetted {low : Nat} (hs : m.Serves V low m') (hm : m.Sound)
    (hv : m.heap.Vetted V idle) : m'.heap.Vetted V idle :=
  hv.steady hs.steady hm.heap hs.sound.heap fun hl ho =>
    (hs.vets hl ho).imp (fun h => ⟨h.1, h.2, id⟩) id

theorem At.serves {low : Nat} (hat : m.At V idle p g below O) (hs : m.Serves V low m')
    (hbase : g.base ≤ low) (hO : V.strict → ∀ i, O i → g.base + i < m.stack.depth → g.base + i < low) :
    m'.At V idle p g below O :=
  hat.keepBelow hs.sound (hs.vetted hat.sound hat.vetted) hs.steady hs.frames_eq hs.opens_eq
    hs.low_le hbase hO

theorem Standing.enterCall (hm : m.Standing V) {closure : Ref} (hl : m.heap.Live closure)
    (hr : m.heap.Runs closure p) (hp : V.good p) (argc limit : Nat) (hargc : argc ≤ 255)
    (hlimit : m.stack.depth = limit + argc + 1)
    (hcalls : m.heap.Calls V m.openUpvalues m.frames.toList.reverse limit)
    (hopen : V.strict → ∀ r ∈ m.openUpvalues, m.heap.slotAt r < limit) :
    ∃ r us, m.heap.object? closure = some (.closure (some r) us) ∧
      Exec.Meets V (Exec.enterCall closure (some r) argc) m fun _ m' => m'.Placed V := by
  obtain ⟨r, us, hobj, hsize, hlaid⟩ := hr
  obtain ⟨F, hF, -, harity, -⟩ := Heap.laidOut_iff.1 hlaid
  refine ⟨r, us, hobj, ?_⟩
  have hfunction : Exec.function r m = .ok F m := by
    have hdef : Exec.function r m = Exec.need (m.heap.function? r) m := rfl
    rw [hdef, Heap.function?_of_object? hF]
    rfl
  unfold Exec.enterCall
  refine .bind_ok (x := Exec.need (some r)) rfl (.bind_ok hfunction ?_)
  split
  · exact .bind_ok (x := get) rfl (.raise_bind hm (by nofun))
  · rename_i hne
    have hargc' : (argc : Int) = p.arity := by
      rw [← harity]
      simpa using hne
    refine .bind_ok (x := get) rfl ?_
    split
    · exact .raise_bind hm (by nofun)
    · have ha : 0 ≤ p.arity ∧ p.arity ≤ 255 := by omega
      obtain ⟨w, hw, hle⟩ := (V.charted hp ha.1 ha.2).entry
      obtain ⟨op, hfits⟩ := (V.charted hp ha.1 ha.2).fits hw
      have hlt : 0 < p.code.size := hfits.lt_size
      have hheight : w.height = argc + 1 := by
        rw [← hle.1]
        simp only [Window.bare]
        omega
      have hbase : m.stack.depth - argc - 1 = limit := by omega
      refine .of_ok (x := set _) rfl ⟨p, ⟨closure, 0, limit⟩, m.frames, w, ?_, hw, ?_⟩
      · rw [hbase]
        refine ⟨?_, hm.vetted, rfl, ⟨r, us, hobj, hsize, hlaid⟩, hp, ha, by simp only; omega,
          hcalls, ?_, ?_⟩
        · refine hm.sound.withFrames fun g hg => ?_
          rcases Array.mem_push.1 hg with hg | rfl
          · exact hm.sound.frames hg
          · exact hl
        · simp only
          omega
        · intro hstrict x hx hge
          exact absurd (hopen hstrict x hx) (Nat.not_lt.2 hge)
      · simp only
        omega

theorem placed_of_calls (hs : m.Sound) (hv : m.heap.Vetted V idle) {limit : Nat}
    (hcalls : m.heap.Calls V m.openUpvalues m.frames.toList.reverse limit) (hne : m.frames ≠ #[])
    (hdepth : m.stack.depth = limit) (hopen : ∀ r ∈ m.openUpvalues, m.heap.slotAt r < limit)
    {v : Value} (hlive : m.heap.LiveValue v) : Placed V { m with stack := m.stack.push v } := by
  obtain ⟨below, g, hframes⟩ :=
    Array.eq_push_of_size_ne_zero fun hzero => hne (Array.size_eq_zero_iff.1 hzero)
  rw [hframes, Array.toList_push, List.reverse_append, List.reverse_singleton,
    List.singleton_append] at hcalls
  cases hcalls with
  | @cons _ _ _ o p w runs good arity chart op ip window opened below' =>
    have hfits := V.fits good arity chart op
    have hroom := hfits.room
    have hin := hfits.inside (Chunk.sane_of_ne nofun)
    simp only [Chunk.length, Op.width] at hin
    have hmem : ((o + 2 : Nat) : Int) ∈ p.chunk.targets .call o := by
      simp [Chunk.targets, isJump, Op.falls, Chunk.length, Op.width]
    obtain ⟨n, heq, w', hw', hle⟩ :=
      (V.charted good arity.1 arity.2).flows chart op (Chunk.sane_of_ne nofun) _ hmem
    obtain rfl : o + 2 = n := Int.ofNat.inj heq
    have hat : m.At V idle p g below (p.chunk.after .call o w).opened := by
      refine ⟨hs, hv, hframes, runs, good, arity, ?_, below', by omega, ?_⟩
      · have : p.chunk.code.size = p.code.size := rfl
        omega
      · intro hstrict r hr hge
        have hlt := hopen r hr
        refine ⟨by omega, Or.inl ⟨by omega, opened hstrict r hr hge hlt⟩⟩
    refine ⟨p, g, below, w', (hat.push hlive).narrow fun _ i hi _ => hle.2 i hi, ip ▸ hw', ?_⟩
    simp only [Stack.depth_push, ← hle.1, Chunk.after]
    have hpushes : p.chunk.pushes .call o = 1 := rfl
    omega

namespace Doing

theorem waits (hm : m.Doing V p f below w .call) :
    m.heap.Calls V m.openUpvalues (below.push { f with ip := f.ip + 1 + 1 }).toList.reverse
      (f.base + w.height - p.chunk.pops .call f.ip) := by
  have hroom := hm.fits.room
  have hkept := hm.kept nofun
  rw [Array.toList_push, List.reverse_append, List.reverse_singleton, List.singleton_append]
  refine .cons hm.at_.runs hm.at_.good hm.at_.arity hm.chart hm.op_eq rfl (by simp only; omega)
    ?_ hm.at_.calls
  intro hstrict r hr hge _
  exact (hkept.opened hstrict r hr hge).2.2

theorem callNative (hm : m.Doing V p f below w .call) (hhost : V.Hosts host) {n : Native}
    (hn : V.native n) {argc : Nat} (hargc : argc = p.chunk.byte (f.ip + 1)) :
    Exec.Meets V (Exec.callNative host n argc) (m.movedTo below f (f.ip + 1 + 1))
      fun _ m' => m'.Placed V := by
  have hdepth := hm.depth
  have hroom := hm.fits.room
  simp only [Chunk.pops, stackEffect] at hroom
  have hat := hm.behindOperand (by decide) (by decide)
  have htop := Stack.top?_eq (s := m.stack) (n := argc) (by omega)
  unfold Exec.callNative
  split
  · exact .raise_bind hat.standing (by simp)
  · rename_i harity
    refine .bind_ok (Exec.top_eq (by simp only; omega)) (.bind_ok (x := get) rfl ?_)
    refine .bind (.need hat.sound hat.vetted (Q := fun routine m' =>
      m' = (m.movedTo below f (f.ip + 1 + 1)) ∧ n.code.bind (host[·]?) = some routine)
      (fun hstrict => hhost.known hstrict hn) fun routine h => ⟨rfl, h⟩) ?_
    rintro routine _ ⟨rfl, hroutine⟩
    have hlen : (m.stack.toList.drop (m.stack.depth - argc)).length = argc := by
      rw [List.length_drop, hat.sound.length_stack]
      simp only
      omega
    have htame := hhost.tame hn hroutine n.name (m.stack.toList.drop (m.stack.depth - argc))
      (m.movedTo below f (f.ip + 1 + 1)) hat.sound hat.vetted.readable (hlen.symm ▸ htop) (by
        intro hnonneg
        rw [hlen]
        simpa [hnonneg] using harity)
    rw [hlen] at htame
    have hlow : f.base + w.height - p.chunk.pops .call f.ip = m.stack.depth - argc - 1 := by
      simp only [Chunk.pops, stackEffect]
      omega
    have hserved : ∀ {m' : Machine}, (m.movedTo below f (f.ip + 1 + 1)).Serves V
      (m.stack.depth - argc - 1) m' →
        m'.At V idle p { f with ip := f.ip + 1 + 1 } below (w.left p .call f.ip) := fun hs =>
      hat.serves hs (by simp only; omega) fun _ i hi _ => by
        simp only at hi ⊢
        omega
    refine .bind (Q := fun r m' => m'.At V idle p { f with ip := f.ip + 1 + 1 } below
      (w.left p .call f.ip) ∧ m.stack.depth - argc - 1 ≤ m'.stack.depth ∧
      ∀ v, r = .ok v → m'.heap.LiveValue v) ?_ ?_
    · unfold Exec.Meets
      revert htame
      cases routine n.name (m.stack.toList.drop (m.stack.depth - argc))
        (m.movedTo below f (f.ip + 1 + 1)) with
      | ok r m' =>
        rintro ⟨hs, hlive⟩
        exact ⟨hserved hs, hs.low_le, hlive⟩
      | error e m' =>
        cases e with
        | failed e => exact False.elim
        | fault e =>
          rintro ⟨hnot, hs⟩
          exact ⟨hnot, hs.sound, (hserved hs).vetted⟩
    · rintro r m' ⟨hat', hle, hlive⟩
      cases r with
      | error message => exact .raise hat'.standing (by simp)
      | ok v =>
        have hcut := hat'.cutTo hle (by simp only; omega) fun _ i hi _ => by
          simp only at hi ⊢
          omega
        refine .bind_ok (x := Exec.cutTo _) rfl (.of_ok (x := Exec.push v) rfl ?_)
        refine hm.falls (n := f.ip + 1 + 1) (hcut.push (hlive v rfl)) (by decide) rfl rfl ?_
        simp only [Chunk.pops, Chunk.pushes, stackEffect, Stack.depth_push, Stack.cutTo]
        omega

theorem call (hm : m.Doing V p f below w .call) (hhost : V.Hosts host) : m.Performs V host .call := by
  have hdepth := hm.depth
  have hroom := hm.fits.room
  simp only [Chunk.pops, stackEffect] at hroom
  obtain ⟨b, hbyte, hread⟩ := hm.readByte (by decide)
  have hat := hm.behindOperand (by decide) (by decide)
  obtain ⟨v, hv, hpeek⟩ := Exec.peek_eq hat.sound.depth_le (n := b.toNat) (by simp only; omega)
  have hlive := Exec.live_of_get? hat.sound hv
  have hb := b.toNat_lt
  have hnot : Exec.Meets V (Exec.typeName v >>= fun t => Exec.raise (.notCallable t) : Exec Unit)
      (m.movedTo below f (f.ip + 1 + 1)) fun _ m' => m'.Placed V := by
    obtain ⟨t, ht⟩ := Exec.exists_typeName hlive
    exact .bind_ok ht (.raise hat.standing (by simp))
  unfold Performs Exec.perform
  refine .bind_ok hread
    (.bind_ok hpeek (.bind (Q := fun _ m' => m'.Placed V) ?_ fun _ _ hplaced => hplaced))
  unfold Exec.callValue
  cases v with
  | object r =>
    obtain ⟨o, ho⟩ := Heap.Live.exists_object? hlive
    refine .bind_ok (Exec.object_eq ho) ?_
    cases o with
    | closure g us =>
      obtain ⟨q, hq, hruns⟩ := hat.vetted.closure hlive ho
      have hkept := hm.kept (by decide)
      obtain ⟨r', us', ho', hmeets⟩ := hat.standing.enterCall hlive hruns hq b.toNat _ (by omega)
        (by simp only; rw [hdepth, hbyte]; simp only [Chunk.pops, stackEffect]; omega) hm.waits (by
          intro hstrict x hx
          have hx' : x ∈ m.openUpvalues := hx
          by_cases hge : f.base ≤ m.heap.slotAt x
          · have := (hkept.opened hstrict x hx' hge).2.1
            simp only at this ⊢
            omega
          · simp only [Chunk.pops, stackEffect]
            omega)
      rw [ho] at ho'
      cases ho'
      exact hmeets
    | native n => exact hm.callNative hhost (hat.vetted.native hlive ho) hbyte
    | _ => exact hnot
  | _ => exact hnot

/-! ## Returns -/

theorem closeUpvalue (hm : m.Doing V p f below w .closeUpvalue) : m.Performs V host .closeUpvalue := by
  have hdepth := hm.depth
  have hroom := hm.fits.room
  simp only [Chunk.pops, stackEffect] at hroom
  unfold Performs Exec.perform
  refine .bind_ok (x := get) rfl (.bind (.closeFrom hm.at_.sound hm.at_.vetted fun hstrict r hr _ =>
    hm.at_.standing.open_lt hstrict r hr) ?_)
  rintro _ m' ⟨hs, hv, hc⟩
  have hstack : m'.stack = m.stack := by rw [hc.rest_eq]
  have hat : m'.At V idle p { f with ip := f.ip + 1 } below
      (w.left p .closeUpvalue f.ip) := by
    refine hm.at_.change hs hv hc.steady (by rw [hc.rest_eq])
      (by rw [hstack]; exact hm.at_.base_le) ?_ ?_
    · intro r hr _
      obtain ⟨hr', heq, -⟩ := hc.opens r hr
      exact ⟨hr', heq⟩
    · intro hstrict r hr hge
      obtain ⟨hr', heq, hlt⟩ := hc.opens r hr
      rw [heq] at hge
      rw [heq, hstack]
      obtain ⟨hlt', hopened⟩ := hm.at_.opened hstrict r hr' hge
      refine ⟨hlt', ?_, hopened⟩
      simp only [Chunk.pops, stackEffect] at hge ⊢
      omega
  obtain ⟨v, -, hpop, hcut⟩ := hm.popOne hat hstack rfl
  exact .bind_ok (x := discard Exec.pop) (Exec.run_bind hpop)
    (.pure (hm.falls hcut (by decide) rfl rfl hm.popped))

theorem «return» (hm : m.Doing V p f below w .return) : m.Performs V host .return := by
  have hdepth := hm.depth
  have hroom := hm.fits.room
  simp only [Chunk.pops, stackEffect] at hroom
  obtain ⟨v, hlive, hpop, hcut⟩ := hm.popOne (hm.kept (by decide)) rfl rfl
  unfold Performs Exec.perform
  show Exec.Meets V Exec.performReturn m _
  unfold Exec.performReturn
  refine .bind_ok hpop
    (.bind_ok (Exec.frame_eq hcut.frames_eq) (.bind (.closeFrom hcut.sound hcut.vetted
    fun hstrict r hr _ => hcut.standing.open_lt hstrict r hr) ?_))
  rintro _ m' ⟨hs, hvet, hc⟩
  have hstack : m'.stack = m.stack.cutTo (f.base + w.height - 1) := by rw [hc.rest_eq]
  have hframes : m'.frames.pop = below := by
    rw [hc.rest_eq]
    simp only [hm.at_.frames_eq, Array.pop_push]
  have hcalls : m'.heap.Calls V m'.openUpvalues below.toList.reverse f.base := by
    refine hm.at_.calls.steady hc.steady hm.at_.sound.heap hs.heap (fun g hg => ?_) fun r hr _ => ?_
    · have hg' : g ∈ m.frames := by
        rw [hm.at_.frames_eq, Array.mem_push]
        exact Or.inl (Array.mem_toList_iff.1 (List.mem_reverse.1 hg))
      exact ⟨hm.at_.sound.frames hg', hc.live (hm.at_.sound.frames hg')⟩
    · obtain ⟨hr', heq, -⟩ := hc.opens r hr
      exact ⟨hr', heq⟩
  have hopen : ∀ r ∈ m'.openUpvalues, m'.heap.slotAt r < f.base := by
    intro r hr
    obtain ⟨-, heq, hlt⟩ := hc.opens r hr
    exact heq.symm ▸ hlt
  have hs' : Machine.Sound { m' with frames := m'.frames.pop } := by
    refine hs.withFrames fun g hg => hs.frames ?_
    rw [hc.rest_eq]
    simp only [hm.at_.frames_eq, Array.mem_push]
    exact Or.inl (hframes ▸ hg)
  refine .bind_ok (x := modify _) rfl (.bind_ok (x := get) rfl ?_)
  split
  · rename_i hempty
    have hnil : below = #[] := by simpa [hframes] using hempty
    refine .bind_ok (x := Exec.cutTo _) rfl (.pure ⟨hs'.cutTo (Nat.zero_le _), hvet, ?_, ?_⟩)
    · exact hframes.trans hnil
    · rw [hnil] at hcalls
      cases hcalls with
      | nil above =>
        refine List.eq_nil_iff_forall_not_mem.2 fun r hr => ?_
        exact Nat.lt_irrefl _ (Nat.lt_of_lt_of_le (hopen r hr) (above r hr))
  · rename_i hempty
    refine .bind_ok (x := Exec.cutTo _) rfl (.bind_ok (x := Exec.push v) rfl (.pure ?_))
    refine placed_of_calls (m := { m' with frames := m'.frames.pop, stack := m'.stack.cutTo f.base })
      (hs'.cutTo (by rw [hstack]; simp only [Stack.cutTo]; omega)) hvet ?_ ?_ rfl hopen
      (hlive.mono hc.live)
    · rw [hframes]
      exact hcalls
    · intro hnil
      exact hempty (by simp [show m'.frames.pop = #[] from hnil])

/-! ## Closures -/

end Doing

theorem At.upvalueOf (hat : m.At V busy p g below O) (hnot : ¬ busy g.closure) {i : Nat}
    (hi : V.strict → (i : Int) < p.upvalueCount) :
    Exec.Meets V (Exec.upvalueOf g.closure i) m fun o m' => m' = m ∧
      (∀ y, o = some y → m.heap.Live y) ∧
      (V.strict → ∃ y u, o = some y ∧ m.heap.object? y = some (.upvalue u)) := by
  by_cases hlt : (i : Int) < p.upvalueCount
  · obtain ⟨o, ho, hl, hfilled⟩ := hat.exists_upvalueOf hnot hlt
    exact .of_ok ho ⟨rfl, hl, hfilled⟩
  · obtain ⟨r, us, hobj, hsize, -⟩ := hat.runs
    have hnone : us[i]? = none := Array.getElem?_eq_none (by omega)
    unfold Exec.upvalueOf
    refine .bind_ok (Exec.object_eq hobj) ?_
    simp only [hnone]
    exact .fault (fun hstrict => hlt (hi hstrict)) hat.sound hat.vetted

/-- The closure `c` over `r` has the first `i` of its `n` variables, and the code has been read up
to `ip`. -/
structure Filling (V : Vetting) (p : Proto) (f : Frame) (below : Array Frame) (w : Window)
    (c r : Ref) (n i ip : Nat) (m : Machine) : Prop where
  at_ : m.At V (· = c) p { f with ip } below (p.chunk.after .closure f.ip w).opened
  apart : f.closure ≠ c
  depth : m.stack.depth = f.base + w.height + 1
  pushed : .object c ∈ m.stack.toList
  filled : ∃ us, m.heap.object? c = some (.closure (some r) us) ∧ us.size = n ∧
    (V.strict → ∀ j < i, m.heap.FilledAt us j)

namespace Filling

variable {c r : Ref} {n i ip : Nat}

section

variable (hm : m.Filling V p f below w c r n i ip)
include hm

theorem live : m.heap.Live c := hm.at_.sound.stack hm.pushed

theorem put {us : Array (Option Ref)} {o : Option Ref}
    (hobj : m.heap.object? c = some (.closure (some r) us)) (ho : ∀ y, o = some y → m.heap.Live y)
    (hfilled : V.strict → ∃ y u, o = some y ∧ m.heap.object? y = some (.upvalue u)) (hi : i < n)
    (hsize : us.size = n) (hbefore : V.strict → ∀ j < i, m.heap.FilledAt us j) :
    Filling V p f below w c r n (i + 1) ip { m with
      heap := m.heap.setObject c (.closure (some r) (us.setIfInBounds i o)) } := by
  have hs := hm.at_.sound.setClosure hm.live hobj i ho
  have hat := hm.at_.keep hs (hm.at_.vetted.setClosure hm.at_.sound.heap hobj (by simp) rfl hs.heap)
    (Heap.steady_setObject hobj ⟨_, rfl, by simp⟩) rfl rfl rfl
  have hkeep : ∀ {y u}, m.heap.object? y = some (.upvalue u) →
      (m.heap.setObject c (.closure (some r) (us.setIfInBounds i o))).object? y =
      some (.upvalue u) := by
    intro y u hu
    rw [Heap.object?_setObject_of_ne]
    · exact hu
    · rintro rfl
      rw [hobj] at hu
      cases hu
  refine ⟨hat, hm.apart, hm.depth, hm.pushed, _, Heap.object?_setObject_self hobj _,
    by simpa using hsize, fun hstrict j hj => ?_⟩
  by_cases heq : j = i
  · subst heq
    obtain ⟨y, u, rfl, hu⟩ := hfilled hstrict
    exact ⟨y, u, by simp [hsize, hi], hkeep hu⟩
  · obtain ⟨y, u, hy, hu⟩ := hbefore hstrict j (by omega)
    exact ⟨y, u, by rw [Array.getElem?_setIfInBounds_ne (Ne.symm heq)]; exact hy, hkeep hu⟩

theorem captured {slot : Nat} {y : Ref}
    (hc : Exec.Captured slot m y m') (hv : m'.heap.Vetted V (· = c)) (hslot : f.base ≤ slot)
    (hlt : slot < m.stack.depth) (hO : (p.chunk.after .closure f.ip w).opened (slot - f.base)) :
    m'.Filling V p f below w c r n i ip := by
  have hstack : m'.stack = m.stack := by rw [hc.rest_eq]
  have hat : m'.At V (· = c) p { f with ip } below (p.chunk.after .closure f.ip w).opened := by
    refine hm.at_.change hc.sound hv hc.evolves.steady (by rw [hc.rest_eq])
      (by rw [hstack]; exact hm.at_.base_le) ?_ ?_
    · intro x hx hlt'
      rcases hc.opens x hx with hx | heq
      · exact hx
      · simp only at hlt'
        omega
    · intro hstrict x hx hge
      rcases hc.opens x hx with ⟨hx', heq⟩ | heq
      · rw [heq] at hge
        rw [heq, hstack]
        exact hm.at_.opened hstrict x hx' hge
      · rw [heq, hstack]
        exact ⟨hlt, hO⟩
  have hpushed : .object c ∈ m'.stack.toList := hstack.symm ▸ hm.pushed
  obtain ⟨us, hobj, hsize, hfilled⟩ := hm.filled
  refine ⟨hat, hm.apart, hstack ▸ hm.depth, hpushed, us,
    (hc.evolves.object_eq hm.live (hc.sound.stack hpushed)).trans hobj, hsize, fun hstrict j hj => ?_⟩
  obtain ⟨x, u, hx, hu⟩ := hfilled hstrict j hj
  have hchild := Heap.mem_children_upvalue (f := some r) hx
  have hobj' := (hc.evolves.object_eq hm.live (hc.sound.stack hpushed)).trans hobj
  exact ⟨x, u, hx, (hc.evolves.object_eq (hm.at_.sound.heap.closed hm.live hobj x hchild)
    (hc.sound.heap.closed (hc.sound.stack hpushed) hobj' x hchild)).trans hu⟩

theorem readPair (hin : ip + 1 < p.code.size) :
    ∃ (kind index : UInt8) (m1 m2 : Machine), kind.toNat = p.chunk.byte ip ∧
      index.toNat = p.chunk.byte (ip + 1) ∧
      Exec.readByte m = .ok kind m1 ∧ Exec.readByte m1 = .ok index m2 ∧
      m2.Filling V p f below w c r n i (ip + 1 + 1) := by
  have hbyte : ∀ j, j < p.code.size → ∃ b : UInt8, p.code[j]? = some b ∧ b.toNat = p.chunk.byte j :=
    fun j hj => ⟨p.code[j], Array.getElem?_eq_getElem hj, by simp [Chunk.byte, Proto.chunk, hj]⟩
  obtain ⟨kind, hkind, hkind'⟩ := hbyte ip (by omega)
  obtain ⟨index, hindex, hindex'⟩ := hbyte (ip + 1) hin
  have hat := hm.at_.moveTo (by omega : ip + 1 - 1 < p.code.size)
  refine ⟨kind, index, _, _, hkind', hindex', Exec.readByte_eq hm.at_.frames_eq hm.at_.runs hkind,
    Exec.readByte_eq hat.frames_eq hat.runs hindex, ?_⟩
  exact ⟨hat.moveTo (by omega), hm.apart, hm.depth, hm.pushed, hm.filled⟩

theorem next {count : Nat} {o : Option Ref} {Q : Unit → Machine → Prop}
    (ho : ∀ y, o = some y → m.heap.Live y)
    (hfilled : V.strict → ∃ y u, o = some y ∧ m.heap.object? y = some (.upvalue u)) (hi : i < n)
    (hrest : ∀ m', m'.Filling V p f below w c r n (i + 1) ip →
      Exec.Meets V (Exec.fillUpvalues c g count (i + 1)) m' Q) :
    Exec.Meets V (Exec.object c >>= fun x => match x with
      | .closure function us =>
          Exec.setObject c (.closure function (us.setIfInBounds i o)) >>= fun _ =>
        Exec.fillUpvalues c g count (i + 1)
      | _ => Exec.fault >>= fun (_ : Unit) => Exec.fillUpvalues c g count (i + 1)) m Q := by
  obtain ⟨us, hobj, hsize, hbefore⟩ := hm.filled
  refine .bind_ok (Exec.object_eq hobj) (.bind_ok (x := Exec.setObject _ _) rfl (hrest _ ?_))
  exact hm.put hobj ho hfilled hi hsize hbefore

theorem fillUpvalues (hbase : g.base = f.base)
    (hclosure : g.closure = f.closure) (count : Nat) (hip : ip = f.ip + 2 + 2 * i) (hn : n = i + count)
    (hcount : p.chunk.captureCount f.ip = n) (hfits : p.chunk.Fits p.upvalueCount .closure f.ip w)
    (hsane : p.chunk.Sane .closure f.ip)
    (hkinds : V.strict → ∀ j < n, p.chunk.byte (f.ip + 2 + 2 * j) = 0 ∨
      p.chunk.byte (f.ip + 2 + 2 * j) = 1) :
    Exec.Meets V (Exec.fillUpvalues c g count i) m fun _ m' =>
      m'.Filling V p f below w c r n n (f.ip + 2 + 2 * n) := by
  induction count generalizing m i ip with
  | zero =>
    obtain rfl : n = i := hn
    exact .pure (hip ▸ hm)
  | succ count ih =>
    have hi : i < n := by omega
    have hin : f.ip + p.chunk.length .closure f.ip ≤ p.code.size := hfits.inside hsane
    simp only [Chunk.length, hcount] at hin
    obtain ⟨kind, index, m1, m2, hkind, hindex, hread, hread', hm2⟩ := hm.readPair (by omega)
    obtain ⟨hzero, hone⟩ := hfits.captures hsane rfl i (hcount.symm ▸ hi)
    rw [show f.ip + 3 + 2 * i = ip + 1 by omega, ← hip] at hzero hone
    have hdepth := hm2.depth
    have hrest : ∀ m', m'.Filling V p f below w c r n (i + 1) (ip + 1 + 1) →
        Exec.Meets V (Exec.fillUpvalues c g count (i + 1)) m' fun _ m' =>
          m'.Filling V p f below w c r n n (f.ip + 2 + 2 * n) :=
      fun m' hm' => ih hm' (by omega) (by omega)
    unfold Exec.fillUpvalues
    refine .bind_ok hread (.bind_ok hread' ?_)
    dsimp only
    split
    · rename_i hlocal
      have hkind1 : p.chunk.byte ip = 1 := by
        rw [← hkind, eq_of_beq hlocal]
        rfl
      have hslot := hone hkind1
      obtain ⟨y, m3, hcapture, hcaptured, hvet⟩ :=
        Exec.exists_capture (V := V) (g.base + index.toNat) hm2.at_.sound hm2.at_.vetted
      have hm3 := hm2.captured hcaptured hvet (by omega) (by omega)
        (Or.inr ⟨rfl, i, hcount.symm ▸ hi, hip ▸ hkind1, by
          rw [show f.ip + 3 + 2 * i = ip + 1 by omega, ← hindex]
          omega⟩)
      refine .bind_ok hcapture (.bind_ok (x := pure (some y)) rfl (hm3.next ?_ ?_ hi hrest))
      · rintro _ ⟨⟩
        exact hcaptured.live
      · intro _
        obtain ⟨u, hu⟩ := hcaptured.upvalue
        exact ⟨y, u, rfl, hu⟩
    · rename_i hother
      have hup : V.strict → (index.toNat : Int) < p.upvalueCount := by
        intro hstrict
        rw [hindex]
        refine hzero ((hip ▸ hkinds hstrict i hi).resolve_right fun hk => hother ?_)
        rw [← hkind] at hk
        simpa [← UInt8.toNat_inj] using hk
      refine .bind (hclosure ▸ hm2.at_.upvalueOf hm2.apart hup) ?_
      rintro o _ ⟨rfl, hlive, hfilled⟩
      exact hm2.next hlive hfilled hi hrest

end

end Filling

theorem At.newClosure {r : Ref} {q : Proto} (hat : m.At V idle p g below O) (hq : V.good q)
    (hlaid : m.heap.LaidOut q r) (hreach : m.heap.Reach [g.closure] r) (hsane : V.strict → q.Sane) :
    Exec.Meets V (Exec.newClosure r) m fun c m' => q.Sane ∧ m'.At V (· = c) p g below O ∧
      m'.stack = m.stack ∧ g.closure ≠ c ∧ m'.heap.Live c ∧
      m'.heap.object? c = some (.closure (some r) (Array.replicate q.upvalueCount.toNat none)) := by
  have hreach' : m.heap.Reach m.roots.refs r := by
    refine hreach.mono fun x hx => ?_
    rw [List.mem_singleton.1 hx]
    exact mem_refs.2 (Or.inr (Or.inl ⟨g, by rw [hat.frames_eq]; simp, rfl⟩))
  refine (Exec.Meets.newClosure hat.sound hat.vetted hq hlaid hreach' hsane).mono ?_
  rintro c m' ⟨hsane', hrest, hs, hv, -, ha⟩
  have hat' := hat.keep hs hv ha.toEvolves.steady (by rw [hrest]) (by rw [hrest]) (by rw [hrest])
  refine ⟨hsane', hat', by rw [hrest], ?_, ha.live_new, ha.object_new⟩
  intro heq
  have hlt := hat.live_closure.lt
  rw [heq] at hlt
  exact absurd ha.fresh (Nat.not_le.2 hlt)

theorem Doing.closure (hm : m.Doing V p f below w .closure) : m.Performs V host .closure := by
  have hdepth := hm.depth
  have hfits := hm.fits
  obtain ⟨q, hq⟩ := hfits.operand
  have hk := Chunk.constants_of_callee? hq
  have hcount : p.chunk.captureCount f.ip = q.upvalueCount.toNat := by simp [Chunk.captureCount, hq]
  have hgood : V.good q := V.nested hm.at_.good (by
    have := List.mem_of_getElem?
      (by simpa [Proto.chunk] using hk : p.constants[p.chunk.byte (f.ip + 1)]? = _)
    exact this)
  obtain ⟨b, hb, hbyte⟩ := hm.operand (by decide)
  obtain ⟨v, low, hread, his, hreach⟩ := Exec.exists_readConstant hm.at_.frames_eq hm.at_.runs hb
    (k := .function q) (by rw [hbyte, ← hk]; simp [Proto.chunk])
  obtain ⟨r, rfl, -⟩ := his.1
  have hat := hm.behindOperand (by decide) (by decide)
  have hsane : V.strict → q.Sane := fun hstrict =>
    (V.tidy hstrict hm.at_.good hm.chart hm.op_eq).sane rfl q hq
  unfold Performs Exec.perform
  refine .bind (Q := fun _ m' => m'.Placed V) ?_ fun _ _ hplaced => hplaced
  unfold Exec.performClosure
  refine .bind_ok hread ?_
  refine .bind_ok (x := pure r) rfl
    (.bind (hat.newClosure hgood (his.2 q r rfl rfl) (hreach r rfl) hsane) ?_)
  rintro c m1 ⟨hsaneq, hat1, hstack, hapart, hlive, hobj⟩
  have hsane' : p.chunk.Sane .closure f.ip := by
    intro _ q' hq'
    rw [hq] at hq'
    cases hq'
    exact hsaneq
  have hfill : Filling V p f below w c r q.upvalueCount.toNat 0 (f.ip + 1 + 1)
      { m1 with stack := m1.stack.push (.object c) } := by
    have hpops : p.chunk.pops .closure f.ip = 0 := rfl
    refine ⟨((hat1.push (v := .object c) hlive).narrow fun _ i hi _ => Or.inl hi), hapart, ?_, ?_,
      _, hobj, by simp, ?_⟩
    · simp only [Stack.depth_push, hstack]
      omega
    · simp only [Stack.toList_push hat1.sound.depth_le]
      exact List.mem_append_right _ List.mem_cons_self
    · exact fun _ j hj => absurd hj (Nat.not_lt_zero j)
  refine .bind_ok (x := Exec.push _) rfl
    (.bind_ok (Exec.frame_eq hfill.at_.frames_eq) (.bind_ok (Exec.object_eq hobj) ?_))
  simp only [Array.size_replicate]
  refine (hfill.fillUpvalues (g := { f with ip := f.ip + 1 + 1 }) rfl rfl q.upvalueCount.toNat rfl
    (Nat.zero_add _).symm hcount hfits hsane' ?_).mono ?_
  · intro hstrict j hj
    exact (V.tidy hstrict hm.at_.good hm.chart hm.op_eq).kinds rfl j (hcount.symm ▸ hj)
  · intro _ m2 hm2
    obtain ⟨us, hobj2, hsize, hfilled⟩ := hm2.filled
    have hvet := hm2.at_.vetted.complete hobj2 fun hstrict j hj => hfilled hstrict j (hsize ▸ hj)
    have hat2 := hm2.at_.keep hm2.at_.sound hvet (.refl _) rfl rfl rfl
    refine hm.lands hat2 hsane' ?_ ?_ fun _ i hi => hi
    · simp [Chunk.targets, isJump, Op.falls, Chunk.length, hcount]
      omega
    · rw [hm2.depth, hdepth]
      rfl

/-! ## Turns -/

/-- An instruction that is met with its window leads to one that is, to the end of the script, or to
an end that vetted code may come to. -/
theorem Doing.perform (hm : m.Doing V p f below w op) (hhost : V.Hosts host) :
    m.Performs V host op := by
  have hplaced : ∀ {x : Exec Unit}, Exec.Meets V x m (fun _ m' => m'.Placed V) →
      Exec.Meets V (x >>= fun _ => pure .running) m fun a m' => m'.Goes V a :=
    fun hx => hx.bind fun _ _ h => h
  cases op with
  | constant => exact hm.constant
  | pushNul => exact hm.literal _ trivial (Or.inl rfl)
  | pushTrue => exact hm.literal _ trivial (Or.inr (Or.inl rfl))
  | pushFalse => exact hm.literal _ trivial (Or.inr (Or.inr rfl))
  | pop => exact hm.pop
  | getLocal => exact hm.getLocal
  | setLocal => exact hm.setLocal
  | getGlobal => exact hm.getGlobal
  | defineGlobal => exact hm.defineGlobal
  | setGlobal => exact hm.setGlobal
  | getUpvalue => exact hm.getUpvalue
  | setUpvalue => exact hm.setUpvalue
  | equal => exact hm.equality (Or.inl rfl) Value.same
  | notEqual => exact hm.equality (Or.inr rfl) fun a b => !a.same b
  | greater | greaterEqual | less | lessEqual | subtract | multiply | divide | modulo =>
    exact hplaced (hm.arithmetic rfl)
  | add => exact hplaced hm.add
  | not => exact hm.not
  | negate => exact hm.negate
  | print => exact hm.print
  | jump => exact hm.jump
  | jumpIfFalse => exact hm.jumpIfFalse
  | loop => exact hm.loop
  | call => exact hm.call hhost
  | closure => exact hm.closure
  | closeUpvalue => exact hm.closeUpvalue
  | «return» => exact hm.return

theorem At.agrees {h' : Heap} (hat : m.At V idle p g below O) (ha : m.heap.Agrees h') :
    At V idle p g below O { m with heap := h' } := by
  have he : m.heap.Evolves m.roots.refs h' :=
    (Heap.Evolves.refl hat.sound.heap fun r hr => hat.sound.roots hr).agrees ha
  have hnone : Heap.Adds (fun _ => False) m.heap h' := fun hl hge _ =>
    absurd (ha.live_iff.1 hl).lt (Nat.not_lt.2 hge)
  refine hat.keep (hat.sound.evolves he (hnone.addsNoOpen fun _ h => h.elim)) ?_ ha.steady rfl rfl rfl
  exact hat.vetted.evolves he hat.sound.heap fun hl hge ho => (hnone hl hge ho).elim

theorem exists_listInstruction {F : Function} {r : Ref} (hcode : F.chunk.code = p.code)
    (hlines : F.chunk.lines = p.lines) (hpool : m.heap.PoolIs r.serial p.constants F.chunk.constants)
    (hsize : p.lines.size = p.code.size) {o : Nat} (hfits : p.chunk.Fits p.upvalueCount op o w)
    (hsane : p.chunk.Sane op o) : listInstruction? m.heap.pool F.chunk o ≠ none := by
  obtain ⟨hlt, hbyte⟩ := Chunk.op?_eq_some hfits.op_eq
  have hlt' : o < p.code.size := hlt
  have hbyte' : F.chunk.code[o]? = some op.toByte := by
    rw [hcode]
    exact hbyte
  obtain ⟨mark, hmark⟩ : ∃ mark, lineMark? F.chunk o = some mark := by
    have hlt'' : o < p.lines.size := hsize.symm ▸ hlt'
    have hline : F.chunk.lines[o]? = some p.lines[o] := by
      rw [hlines]
      exact Array.getElem?_eq_getElem hlt''
    unfold lineMark?
    rw [hline]
    dsimp only
    split <;> exact ⟨_, rfl⟩
  have hbytes : ∀ i, F.chunk.byte i = p.chunk.byte i :=
    fun i => by simp only [Chunk.byte, hcode, Proto.chunk]
  have htext : instructionText? m.heap.pool F.chunk op o ≠ none := by
    cases op with
    | closure =>
      obtain ⟨q, hq⟩ := hfits.operand
      have hk : p.constants[p.chunk.byte (o + 1)]? = some (.function q) := by
        simpa [Proto.chunk] using Chunk.constants_of_callee? hq
      have hi : p.chunk.byte (o + 1) < F.chunk.constants.size := by
        rw [hpool.size_eq]
        exact (List.getElem?_eq_some_iff.1 hk).1
      obtain ⟨hvalue, hnested⟩ := hpool.constant hk (Array.getElem?_eq_getElem hi)
      obtain ⟨x, hx, -⟩ := hvalue
      obtain ⟨G, hG, -, -, hup, -⟩ := Heap.laidOut_iff.1 (hnested q x rfl hx)
      have hcount : p.chunk.captureCount o = q.upvalueCount.toNat := by simp [Chunk.captureCount, hq]
      have hin : o + p.chunk.length .closure o ≤ p.code.size := hfits.inside hsane
      simp only [Chunk.length, hcount] at hin
      have hnonneg := (hsane rfl q hq).1
      have hcaptures : (F.chunk.constants[p.chunk.byte (o + 1)]?.bind m.heap.pool.captures?).getD 0 =
          q.upvalueCount := by
        rw [Array.getElem?_eq_getElem hi, hx]
        simp [Heap.pool, Heap.function?_of_object? hG, hup]
      simp only [instructionText?, captureText?, hbytes, hcaptures, hcode]
      rw [if_pos (by omega)]
      simp
    | _ => simp [instructionText?]
  unfold listInstruction?
  simp only [hmark, hbyte', Op.ofByte?_toByte]
  split
  · rename_i heq
    cases heq
    simpa using htext
  · simp
  · rename_i heq
    cases heq

theorem Placed.noteInstruction (hm : m.Placed V) :
    Exec.Meets V Exec.noteInstruction m fun _ m' => m'.Placed V ∧ m'.interrupted = m.interrupted := by
  obtain ⟨p, f, below, w, hat, hchart, hdepth⟩ := hm
  obtain ⟨op, hfits⟩ := (V.charted hat.good hat.arity.1 hat.arity.2).fits hchart
  obtain ⟨shown, hshown⟩ :=
    Exec.exists_foldlM_text hat.vetted (fun acc t => acc ++ "[ " ++ t ++ " ]") m.stack.toList
    (fun v hv => hat.sound.stack hv) "          "
  obtain ⟨F, r, hF, -, hcode, hlines, hpool, -⟩ := Exec.exists_functionOf hat.runs
  unfold Exec.noteInstruction
  refine .bind_ok (x := get) rfl
    (.bind_ok hshown (.bind_ok (Exec.frame_eq hat.frames_eq) (.bind_ok hF ?_)))
  refine .bind (.need hat.sound hat.vetted (Q := fun _ m' => m' = m) ?_ fun _ _ => rfl) ?_
  · intro hstrict
    exact exists_listInstruction hcode hlines hpool (V.lines hat.good) hfits
      (V.tidy hstrict hat.good hchart hfits.op_eq).sane
  · rintro _ _ rfl
    exact .of_ok (x := Exec.note _) rfl
      ⟨⟨p, f, below, w, hat.agrees (Heap.agrees_note ..), hchart, hdepth⟩, rfl⟩

theorem Placed.readAndPerform (hm : m.Placed V) (hhost : V.Hosts host) :
    Exec.Meets V (Exec.readByte >>= fun byte => match Op.ofByte? byte with
      | some op => Exec.perform host op
      | none => Exec.raise (.unknownInstruction byte)) m fun a m' => m'.Goes V a := by
  obtain ⟨p, f, below, w, hat, hchart, hdepth⟩ := hm
  obtain ⟨op, hfits⟩ := (V.charted hat.good hat.arity.1 hat.arity.2).fits hchart
  obtain ⟨hlt, hbyte⟩ := Chunk.op?_eq_some hfits.op_eq
  have hlt' : f.ip < p.code.size := hlt
  refine .bind_ok (Exec.readByte_eq hat.frames_eq hat.runs hbyte) ?_
  simp only [Op.ofByte?_toByte]
  exact Doing.perform ⟨hat.moveTo (by omega), hchart, hfits.op_eq, hdepth⟩ hhost

/-- **A turn of the machine on vetted code.** -/
theorem Placed.step (hm : m.Placed V) (hhost : V.Hosts host) :
    Exec.Meets V (Exec.step host) m fun a m' => m'.Goes V a := by
  unfold Exec.step
  refine .bind_ok (x := get) rfl ?_
  split
  · obtain ⟨p, f, below, w, hat, -⟩ := hm
    have hat' : At V idle p f below w.opened { m with interrupted := false } :=
      hat.keep { hat.sound with } hat.vetted (.refl _) rfl rfl rfl
    exact .bind_ok (x := modify _) rfl (.raise_bind hat'.standing (by nofun))
  · refine .bind_ok (x := get) rfl ?_
    split
    · exact .bind hm.noteInstruction fun _ m' h => h.1.readAndPerform hhost
    · exact hm.readAndPerform hhost

end Machine

end Parlance
