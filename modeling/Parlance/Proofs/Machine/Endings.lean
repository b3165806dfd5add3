/-
  What runs leave behind.
-/
import Parlance.Proofs.Machine.Cleanup
import Parlance.Proofs.Machine.Datum

namespace Parlance

-- no statement here looks into compilations or collections
attribute [local irreducible] compileTokens Heap.collect

/-! ## Runs -/

namespace Machine

variable {m m' m'' : Machine} {host : Host} {file source : String} {r : Ref} {turns : Nat}

/-- The machines between the turns of a run that goes on from `m`. It may be asked to stop at any
time. -/
inductive During (host : Host) (m : Machine) : Machine → Prop
  | start : During host m m
  | turn {m' m'' : Machine} (before : During host m m')
      (taken : (Exec.step host) m' = .ok .running m'') : During host m m''
  | asked {m' : Machine} (before : During host m m') : During host m { m' with interrupted := true }

theorem During.trans (hd : During host m m') (hd' : During host m' m'') : During host m m'' := by
  induction hd' with
  | start => exact hd
  | turn _ taken ih => exact .turn ih taken
  | asked _ ih => exact .asked ih

/-- **Every turn** that goes on leaves a variable open, or closes it over the value in its slot. -/
theorem proceeds_of_step [SparesHost host] (hm : m.Tethered) (hground : m.Grounded)
    (taken : (Exec.step host) m = .ok .running m') : m.Proceeds m' := by
  have hstep := Exec.step_tidies host hm hground
  unfold Exec.Tidies at hstep
  rw [taken] at hstep
  exact hstep

/-- Between turns the list of open variables is complete, and the outermost call has the whole
stack. -/
theorem During.tethered [SparesHost host] (hm : m.Tethered) (hground : m.Grounded)
    (hd : During host m m') : m'.Tethered ∧ m'.Grounded := by
  induction hd with
  | start => exact ⟨hm, hground⟩
  | turn _ taken ih =>
    have hp := proceeds_of_step ih.1 ih.2 taken
    exact ⟨hp.tethered, hp.grounded⟩
  | asked _ ih => exact ⟨⟨ih.1.mem_iff, ih.1.nodup⟩, ih.2⟩

/-- What was open in `m`, or became so in the turn from it, is closed in `m'` over what its slot
held where the turn ended, or over `nul`. -/
def ClosedOn (host : Host) (m m' : Machine) : Prop := ∃ last, m.Stops host last ∧ last.Closes m'

theorem Stops.clean {last : Machine} (hstops : m.Stops host last) :
    last.abandon.Clean ∧ m.ClosedOn host last.abandon := by
  obtain ⟨s, hs, hg⟩ := hstops
  exact ⟨hg.tethered.clean_abandon, last, ⟨s, hs, hg⟩, hg.tethered.closes_abandon⟩

/-- The turn from `m` is the last one, and leaves `m'`. -/
structure LastTurn (host : Host) (m m' : Machine) : Prop where
  ended : ∀ m'', (Exec.step host) m ≠ .ok .running m''
  left : (settle ((Exec.step host) m)).2 = m'
  clean : m'.Clean
  closed : m.ClosedOn host m'

theorem Stops.lastTurn {last : Machine} (hstops : m.Stops host last)
    (ended : ∀ m'', (Exec.step host) m ≠ .ok .running m'')
    (left : (settle ((Exec.step host) m)).2 = last.abandon) (heq : m' = last.abandon) :
    m.LastTurn host m' := by
  subst heq
  exact ⟨ended, left, hstops.clean.1, hstops.clean.2⟩

/-- **A run** that comes to an end does so in a turn, and leaves nothing behind. -/
theorem ends_of_runFor [SparesHost host] (turns : Nat) (hm : m.Tethered) (hground : m.Grounded)
    {a : Except RuntimeError Bool} (hrun : settle ((Exec.runFor host turns) m) = (a, m'))
    (hover : a ≠ .ok false) : ∃ before, During host m before ∧ before.LastTurn host m' := by
  induction turns generalizing m with
  | zero =>
    cases hrun
    exact (hover rfl).elim
  | succ turns ih =>
    have hstep := Exec.step_tidies host hm hground
    unfold Exec.Tidies at hstep
    rw [Exec.runFor] at hrun
    cases htaken : (Exec.step host) m with
    | ok p m1 =>
      rw [Exec.run_bind htaken] at hrun
      rw [htaken] at hstep
      cases p with
      | running =>
        have hp : m.Proceeds m1 := hstep
        obtain ⟨before, hd, hends⟩ := ih hp.tethered hp.grounded hrun
        exact ⟨before, (During.turn .start htaken).trans hd, hends⟩
      | finished =>
        obtain ⟨last, hstops, heq⟩ : ∃ last, m.Stops host last ∧ m1 = last.abandon := hstep
        obtain rfl : m1 = m' := congrArg Prod.snd hrun
        exact ⟨m, .start, hstops.lastTurn (fun m'' h => by cases htaken.symm.trans h)
          (by rw [htaken]; exact heq) heq⟩
    | error e m1 =>
      rw [Exec.run_bind_error htaken] at hrun
      rw [htaken] at hstep
      obtain ⟨last, hstops, hlast⟩ := hstep
      have heq : m' = last.abandon := by
        have hleft : m' = (settle (.error e m1 : EStateM.Result Halt Machine Bool)).2 :=
          (congrArg Prod.snd hrun).symm
        rw [← hlast, hleft]
        cases e <;> rfl
      exact ⟨m, .start, hstops.lastTurn (fun m'' h => by cases htaken.symm.trans h)
        (by rw [htaken]; exact hlast) heq⟩

theorem push_cutTo_push {s : Stack} (hs : s.depth ≤ s.cells.size) (v w : Value) :
    ((s.push v).cutTo ((s.push v).depth - 1)).push w = s.push w := by
  unfold Stack.push Stack.cutTo
  by_cases hlt : s.depth < s.cells.size
  · simp [hlt]
  · obtain heq : s.depth = s.cells.size := by omega
    have hset : (s.cells.push v).setIfInBounds s.cells.size w = s.cells.push w := by
      refine Array.ext_getElem? fun i => ?_
      rw [Array.getElem?_setIfInBounds, Array.getElem?_push, Array.getElem?_push]
      split <;> simp_all [eq_comm]
    simp [heq, hset]

theorem start_tidies (host : Host) (hm : m.Tethered) (hstack : m.stack.depth = 0)
    (hframes : m.frames = #[]) (r : Ref) :
    Exec.Tidies (m.Stops host) (Exec.start r) m fun _ m' => m'.Tethered ∧ m'.Grounded := by
  have hpushed : ∀ v, m.Halfway host (m.stack.push v) := .pushed
  have hkeeps1 : m.Keeps { m with interrupted := false, stack := m.stack.push (.object r) } :=
    .of_eq rfl rfl rfl
  have hg1 := hm.gains.keeps hkeeps1
  unfold Exec.start
  refine .bind_ok (x := modify _) rfl (.bind_ok (x := Exec.push _) rfl (.row_bind (hpushed _) hg1 ?_))
  intro closure m2 hg2
  refine .bind (Exec.Pops.pop (hpushed _) hg2) fun _ m3 _ hg3 => .bind_ok (x := Exec.push _) rfl ?_
  have hkeeps4 : m3.Keeps { m3 with stack := m3.stack.push (.object closure) } := .of_eq rfl rfl rfl
  have hg4 := hg3.keeps hkeeps4
  have hstack4 : m3.stack.push (.object closure) = m.stack.push (.object closure) := by
    rw [hg3.stack_eq, push_cutTo_push (by omega)]
  refine (Exec.enterCall_tidies hg4 (hstack4 ▸ hpushed _) closure (some r) 0).mono id ?_
  rintro _ _ - ⟨m5, hg5, rfl⟩
  refine ⟨⟨hg5.tethered.mem_iff, hg5.tethered.nodup⟩, ?_⟩
  have hempty : m5.frames.map (·.base) = #[] := by rw [hg5.bases_eq, hframes, Array.map_empty]
  have hdepth : m5.stack.depth = 1 := by
    rw [hg5.stack_eq]
    show (m3.stack.push (.object closure)).depth = 1
    rw [hstack4, Stack.depth_push, hstack]
  unfold Grounded
  simp [hempty, hdepth]

/-- How a run of the function `r` leaves the machine `m'`. -/
inductive Ran (host : Host) (file : String) (r : Ref) (m : Machine) : Machine → Prop
  /-- The call could not begin. -/
  | unbegun {e : RuntimeError} {m' : Machine} (begun : m.begin file r = (.error e, m'))
      (clean : m'.Clean) (closed : ClosedOn host { m with file } m') : Ran host file r m m'
  | turns {m₁ before m' : Machine} (begun : m.begin file r = (.ok (), m₁))
      (during : During host m₁ before) (ends : before.LastTurn host m') : Ran host file r m m'

/-- In the middle of a run of the function `r`, a turn that goes on leaves a variable open or closes
it over the value in its slot; and wherever the run is taken up again, it comes to its end in a last
turn. -/
def Mindful (host : Host) (file : String) (r : Ref) (m : Machine) : Prop :=
  ∀ {m₁ mid m' : Machine}, m.begin file r = (.ok (), m₁) → During host m₁ mid →
    ((Exec.step host) mid = .ok .running m' → mid.Proceeds m') ∧
    ∀ {turns o}, mid.resume host turns = (o, m') → o ≠ .unfinished → m'.Clean ∧ m.Ran host file r m'

theorem begin_ok (hm : m.Tethered) (hstack : m.stack.depth = 0) (hframes : m.frames = #[])
    (hbegin : m.begin file r = (.ok (), m')) : m'.Tethered ∧ m'.Grounded := by
  have hstart := start_tidies #[] (m := { m with file }) ⟨hm.mem_iff, hm.nodup⟩ hstack hframes r
  unfold begin EStateM.run at hbegin
  unfold Exec.Tidies at hstart
  cases hx : (Exec.start r) { m with file } with
  | ok _ m1 =>
    rw [hx] at hstart hbegin
    cases hbegin
    exact hstart
  | error e m1 =>
    rw [hx] at hbegin
    cases e <;> cases hbegin

theorem begin_error (host : Host) (hm : m.Tethered) (hstack : m.stack.depth = 0)
    (hframes : m.frames = #[]) {e : RuntimeError}
    (hbegin : m.begin file r = (.error e, m')) : m'.Clean ∧ ClosedOn host { m with file } m' := by
  have hstart := start_tidies host (m := { m with file }) ⟨hm.mem_iff, hm.nodup⟩ hstack hframes r
  unfold begin EStateM.run at hbegin
  unfold Exec.Tidies at hstart
  cases hx : (Exec.start r) { m with file } with
  | ok _ m1 =>
    rw [hx] at hbegin
    cases hbegin
  | error e' m1 =>
    rw [hx] at hstart hbegin
    obtain ⟨last, hstops, hlast⟩ := hstart
    have heq : m' = last.abandon := (congrArg Prod.snd hbegin).symm.trans hlast
    subst heq
    exact hstops.clean

theorem resume_clean [SparesHost host] (hm : m.Tethered) (hground : m.Grounded) {o : Outcome}
    (hresume : m.resume host turns = (o, m')) (hover : o ≠ .unfinished) :
    ∃ before, During host m before ∧ before.LastTurn host m' := by
  unfold resume EStateM.run at hresume
  generalize hsettle : settle ((Exec.runFor host turns) m) = settled at hresume
  obtain ⟨done, m1⟩ := settled
  have hsame : m1 = m' ∧ done ≠ .ok false := by
    cases done with
    | error e =>
      cases hresume
      exact ⟨rfl, nofun⟩
    | ok b =>
      cases b with
      | false =>
        cases hresume
        exact (hover rfl).elim
      | true =>
        cases hresume
        exact ⟨rfl, nofun⟩
  obtain ⟨rfl, hdone⟩ := hsame
  exact ends_of_runFor turns hm hground hsettle hdone

theorem runFunction_clean [SparesHost host] (hm : m.Tethered) (hstack : m.stack.depth = 0)
    (hframes : m.frames = #[])
    (r : Ref) {o : Outcome} (hrun : m.runFunction host turns file r = (o, m'))
    (hover : o ≠ .unfinished) : m'.Clean ∧ m.Ran host file r m' := by
  unfold runFunction at hrun
  generalize hbegin : m.begin file r = begun at hrun
  obtain ⟨a, m1⟩ := begun
  cases a with
  | error e =>
    cases hrun
    have hafter := begin_error host hm hstack hframes hbegin
    exact ⟨hafter.1, .unbegun hbegin hafter.1 hafter.2⟩
  | ok _ =>
    have hafter := begin_ok hm hstack hframes hbegin
    obtain ⟨before, hd, hlast⟩ := resume_clean hafter.1 hafter.2 hrun hover
    exact ⟨hlast.clean, .turns hbegin hd hlast⟩

/-! ## Machines between runs -/

theorem Clean.tethered (hm : m.Clean) : m.Tethered := by
  refine ⟨fun r => ?_, hm.opens_eq ▸ List.nodup_nil⟩
  rw [hm.opens_eq]
  cases hslot : m.heap.openSlot? r with
  | none => simp
  | some i =>
    obtain ⟨u, hu, hopen, -⟩ := Heap.openSlot?_eq_some hslot
    rw [hm.closed hu] at hopen
    cases hopen

theorem Clean.opened (hm : m.Clean) (hstack : m'.stack.depth = 0) (hframes : m'.frames = m.frames)
    (hopens : m'.openUpvalues = m.openUpvalues) (hheap : m.heap.Opened m'.heap) : m'.Clean where
  stack_eq := hstack
  frames_eq := hframes.trans hm.frames_eq
  opens_eq := hopens.trans hm.opens_eq
  closed {r u} hu := by
    have hclosed : m.heap.openSlot? r = none := by
      have hiff := hm.tethered.mem_iff r
      rw [hm.opens_eq] at hiff
      simpa using hiff
    have hslot := hheap r
    rw [hclosed, Heap.openSlot?_eq hu, Object.openSlot?] at hslot
    simpa using hslot

/-- The machines that a host has between runs: natives and globals are bound, functions laid out or
compiled, and runs came to an end, whatever that was. -/
inductive Kept (host : Host) : Machine → Prop
  | new (settings : Settings) : Kept host (new settings)
  | native {m m' : Machine} (before : Kept host m) {name : String} {arity : Int} {code : Nat} {r : Ref}
      (bound : (Exec.defineNative name arity code) m = .ok r m') : Kept host m'
  | global {m : Machine} (before : Kept host m) (name : String) (v : Value) :
      Kept host (m.setGlobal name v)
  | compiled {m : Machine} (before : Kept host m) (file source : String) :
      Kept host (m.compile file source).2
  | loaded {m : Machine} (before : Kept host m) (p : Proto) : Kept host (m.load p).2
  /-- The host changes what is neither on the heap nor part of a run. -/
  | altered {m m' : Machine} (before : Kept host m) (stack : m'.stack.depth = 0)
      (frames : m'.frames = m.frames)
      (opens : m'.openUpvalues = m.openUpvalues) (heap : m'.heap = m.heap) : Kept host m'
  | ran {m m' : Machine} (before : Kept host m) {turns : Nat} {file : String} {r : Ref} {o : Outcome}
      (run : m.runFunction host turns file r = (o, m')) (ended : o ≠ .unfinished) : Kept host m'

theorem clean_new (settings : Settings) : (new settings).Clean :=
  ⟨rfl, rfl, rfl, fun hu => by simp [new, Heap.new, Heap.object?] at hu⟩

theorem Clean.compile (hm : m.Clean) (file source : String) : (m.compile file source).2.Clean := by
  rw [compile_snd]
  exact hm.opened hm.stack_eq rfl rfl
    (m.heap.opened_buildAll _ _ (admitted_builds (F := fun _ => True) file source))

theorem Clean.load (hm : m.Clean) (p : Proto) : (m.load p).2.Clean :=
  hm.opened hm.stack_eq rfl rfl (m.heap.opened_layOut m.roots p)

theorem Clean.defineNative (hm : m.Clean) {name : String} {arity : Int} {code : Nat}
    (hbound : (Exec.defineNative name arity code) m = .ok r m') : m'.Clean := by
  have hbind : Exec.Tidies (fun _ => True) (Exec.defineNative name arity code) m fun _ m' =>
    m.Keeps m' ∧
      m'.stack.depth = 0 := by
    refine .bind (.calm fun _ _ => trivial) fun key m1 _ h1 => .bind_ok (x := Exec.push _) rfl
      (.bind (.calm fun _ _ => trivial) fun r m2 _ h2 =>
        .bind_ok (x := Exec.push _) rfl (.bind_ok (x := modify _) rfl ?_))
    refine .bind (((Exec.pop_tidies _).mono (fun _ => trivial) fun _ => id).discard) ?_
    rintro _ m3 - ⟨_, h3⟩
    refine .bind (((Exec.pop_tidies m3).mono (fun _ => trivial) fun _ => id).discard) ?_
    rintro _ m4 - ⟨_, h4⟩
    refine .pure ⟨?_, ?_⟩
    · rw [h4, h3]
      have hpushed : m1.Keeps { m1 with stack := m1.stack.push (.object key.ref) } :=
        .of_eq rfl rfl rfl
      exact (h1.toKeeps.trans (hpushed.trans h2.toKeeps)).trans (.of_eq rfl rfl rfl)
    · rw [h4, h3]
      simp [Stack.cutTo, Stack.depth_push, h2.stack_eq, h1.stack_eq, hm.stack_eq]
  unfold Exec.Tidies at hbind
  rw [hbound] at hbind
  obtain ⟨hkeeps, hdepth⟩ := hbind
  refine hm.opened hdepth ?_ hkeeps.opens_eq hkeeps.opened
  have hbases := hkeeps.bases_eq
  rw [hm.frames_eq, Array.map_empty, Array.map_eq_empty_iff] at hbases
  rw [hbases, hm.frames_eq]

theorem Kept.clean [SparesHost host] (hm : m.Kept host) : m.Clean := by
  induction hm with
  | new settings => exact clean_new settings
  | native _ bound ih => exact ih.defineNative bound
  | @global m _ name v ih =>
    refine ih.opened ?_ rfl rfl (m.heap.opened_intern _ name)
    show (m.stack.push v).depth - 1 = 0
    rw [Stack.depth_push, ih.stack_eq]
  | compiled _ file source ih => exact ih.compile file source
  | loaded _ p ih => exact ih.load p
  | altered _ stack frames opens heap ih => exact ih.opened stack frames opens fun _ => by rw [heap]
  | ran _ run ended ih => exact (runFunction_clean ih.tethered ih.stack_eq ih.frames_eq _ run ended).1

theorem Clean.mindful [SparesHost host] (hm : m.Clean) (file : String) (r : Ref) :
    m.Mindful host file r := by
  intro m1 mid m' hbegin hd
  obtain ⟨hteth, hground⟩ := begin_ok hm.tethered hm.stack_eq hm.frames_eq hbegin
  obtain ⟨hteth', hground'⟩ := hd.tethered hteth hground
  refine ⟨proceeds_of_step hteth' hground', fun hresume hover => ?_⟩
  obtain ⟨before, hd', hlast⟩ := resume_clean hteth' hground' hresume hover
  exact ⟨hlast.clean, .turns hbegin (hd.trans hd') hlast⟩

theorem compile_globals (m : Machine) (file source : String) :
    (m.compile file source).2.globals = m.globals ∧
    (m.Sound → (m.compile file source).2.data = m.data) := by
  rw [compile_snd]
  refine ⟨rfl, fun hm => ?_⟩
  obtain ⟨hu, -⟩ := hm.heap.building (F := Object.Fixed) (fun _ ho => ho.fixed)
    (fun x (hx : x ∈ (Heap.withPending m.roots []).refs) => hm.roots hx) m.settings.printCode
    (admitted_builds file source)
  exact data_kept hm (hm.evolves hu.toEvolves (Heap.Adds.addsNoOpen hu.adds fun _ h => h))
    fun hl hl' => hu.object_eq hl hl'

/-- **Every run leaves the machine clean.** So is every machine that a host has between runs.
However a run of a source or of any function ends, no value is left on the stack, no call is active
and no variable is open; what was open is closed over what its slot held where the last turn ended,
or over `nul` if the slot was gone. A source that does not compile leaves the globals as they
were. -/
theorem runs_leave_clean [SparesHost host] : (∀ {m : Machine}, m.Kept host → m.Clean) ∧
    ∀ {m : Machine}, m.Clean → ∀ (turns : Nat) (file : String),
      (∀ {r o m'}, m.runFunction host turns file r = (o, m') → o ≠ .unfinished → m'.Clean ∧
        m.Ran host file r m') ∧
      (∀ r, m.Mindful host file r) ∧
      ∀ {source o m'}, m.run host turns file source = (o, m') → o ≠ .unfinished → m'.Clean ∧
        (∀ ds, o = .refused ds → m'.globals = m.globals ∧ (m.Sound → m'.data = m.data)) ∧
        ∀ {r m₁}, m.compile file source = (.ok r, m₁) → m₁.Ran host file r m' ∧
          m₁.Mindful host file r := by
  refine ⟨Kept.clean, fun {m} hm turns file => ⟨fun {r o m'} hrun hover => ?_, hm.mindful file, ?_⟩⟩
  · exact runFunction_clean hm.tethered hm.stack_eq hm.frames_eq r hrun hover
  intro source o m' hrun hover
  have hcompiled := hm.compile file source
  have hglobals := m.compile_globals file source
  unfold run at hrun
  generalize m.compile file source = compiled at hcompiled hglobals hrun
  obtain ⟨a, m₁⟩ := compiled
  cases a with
  | error ds =>
    cases hrun
    exact ⟨hcompiled, fun _ _ => hglobals, fun h => by cases h⟩
  | ok r =>
    obtain ⟨hclean, hran⟩ :=
      runFunction_clean hcompiled.tethered hcompiled.stack_eq hcompiled.frames_eq r hrun hover
    refine ⟨hclean, fun ds hds => (runFunction_ne_refused hrun ds hds).elim, fun h => ?_⟩
    cases h
    exact ⟨hran, hcompiled.mindful file r⟩

end Machine

/-- A function that captures its own slot and one that is not there, and goes on with no
instruction. -/
def strayFunction : Proto where
  code := #[Op.closure.toByte, 0, 1, 0, 1, 9, 255]
  lines := #[1, 1, 1, 1, 1, 1, 2]
  constants := [.function { upvalueCount := 2, code := #[Op.return.toByte], lines := #[1] }]

/-- The run failed, and both variables are closed. -/
def closesStray : Outcome × Machine → Bool
  | (.failed _, m') =>
    match m'.heap.object? ⟨4⟩, m'.heap.object? ⟨5⟩ with
    | some (.upvalue ⟨false, 0, .object _⟩), some (.upvalue ⟨false, 9, .nul⟩) => true
    | _, _ => false
  | _ => false

/-- The run fails at an unknown instruction, and then at closing the variable whose slot is not
there. Both variables are closed, one of them over `nul`. -/
theorem runs_leave_clean_stray :
    ∃ (m : Machine) (r : Ref) (o : Outcome) (m' : Machine), m.Kept Native.builtinLibrary.host ∧
    m.runFunction Native.builtinLibrary.host 5 "essai" r = (o, m') ∧ o ≠ .unfinished ∧ m'.Clean ∧
    ∃ x y v, m'.heap.object? x = some (.upvalue ⟨false, 0, .object v⟩) ∧
      m'.heap.object? y = some (.upvalue ⟨false, 9, .nul⟩) := by
  have hkept : ((Machine.new {}).load strayFunction).2.Kept Native.builtinLibrary.host :=
    .loaded (.new {}) strayFunction
  have hends :
    closesStray (((Machine.new {}).load strayFunction).2.runFunction
    Native.builtinLibrary.host 5 "essai"
      ((Machine.new {}).load strayFunction).1) = true := by decide +kernel
  cases hrun : ((Machine.new {}).load strayFunction).2.runFunction Native.builtinLibrary.host 5 "essai"
      ((Machine.new {}).load strayFunction).1 with
  | mk o m' =>
    rw [hrun] at hends
    cases o with
    | failed e =>
      rw [closesStray] at hends
      split at hends
      · rename_i hx hy
        have hclean :=
          (Machine.runs_leave_clean.2 (Machine.runs_leave_clean.1 hkept) 5 "essai").1 hrun (by simp)
        exact ⟨_, _, _, m', hkept, hrun, by simp, hclean.1, ⟨4⟩, ⟨5⟩, _, hx, hy⟩
      · cases hends
    | _ => cases hends

end Parlance
