/-
  What turns leave behind.

  The code is arbitrary: it may pop below its window, jump anywhere and capture slots that are not
  there.
-/
import Parlance.Proofs.Machine.Tethers

namespace Parlance

-- no statement here looks into compilations or collections
attribute [local irreducible] compileTokens Heap.collect

/-! ## Dropping the state of a run -/

/-- An object when the state of a run is dropped. -/
def Object.dropped (stack : Stack) : Object → Object
  | .upvalue u => .upvalue { u with isOpen := false, closed := (stack.get? u.slot).getD .nul }
  | o => o

theorem Object.dropped_dropped (stack : Stack) (o : Object) :
    (o.dropped stack).dropped stack = o.dropped stack := by
  cases o <;> rfl

theorem Object.openSlot?_dropped (stack : Stack) (o : Object) :
    (o.dropped stack).openSlot? = none := by
  cases o <;> rfl

theorem Heap.object?_close {h : Heap} {r : Ref} {u : Upvalue} (hu : h.object? r = some (.upvalue u))
    (v : Value) (x : Ref) :
    (h.setObject r (.upvalue { u with isOpen := false, closed := v })).object? x =
      if r = x then some (.upvalue ⟨false, u.slot, v⟩) else h.object? x := by
  rw [Heap.object?_setObject]
  split
  · rename_i hrx
    subst hrx
    simp [hu]
  · rfl

namespace Machine

variable {m m' : Machine} {r : Ref} {i : Nat}

theorem object?_abandonUpvalue (stack : Stack) (h : Heap) (r x : Ref) :
    (abandonUpvalue stack h r).object? x =
    if r = x then (h.object? x).map (Object.dropped stack) else h.object? x := by
  unfold abandonUpvalue
  split
  · rename_i u hu
    rw [Heap.object?_setObject]
    split
    · rename_i hrx
      subst hrx
      simp [hu, Object.dropped]
    · rfl
  · rename_i hnot
    split
    · rename_i hrx
      subst hrx
      cases ho : h.object? r with
      | none => rfl
      | some o =>
        cases o with
        | upvalue u => exact (hnot u ho).elim
        | _ => rfl
    · rfl

theorem object?_abandonAll (stack : Stack) (us : List Ref) (h : Heap) (x : Ref) :
    (us.foldl (abandonUpvalue stack) h).object? x =
      if x ∈ us then (h.object? x).map (Object.dropped stack) else h.object? x := by
  induction us generalizing h with
  | nil => simp
  | cons r us ih =>
    rw [List.foldl_cons, ih, object?_abandonUpvalue]
    by_cases hr : r = x
    · subst hr
      simp [Function.comp_def, Object.dropped_dropped]
    · simp [hr, Ne.symm hr]

/-- Nothing of a run is left: no value, no call, and no variable that is open. -/
structure Clean (m : Machine) : Prop where
  stack_eq : m.stack.depth = 0
  frames_eq : m.frames = #[]
  opens_eq : m.openUpvalues = []
  closed : ∀ {r u}, m.heap.object? r = some (.upvalue u) → u.isOpen = false

/-- The variables that are open in `m` are closed in `m'`: over what their slot holds in `m`, or
over `nul` if there is no such slot. -/
def Closes (m m' : Machine) : Prop := ∀ {r i}, m.heap.openSlot? r = some i →
  m'.heap.object? r = some (.upvalue ⟨false, i, (m.stack.get? i).getD .nul⟩)

theorem Tethered.clean_abandon (hm : m.Tethered) : m.abandon.Clean where
  stack_eq := rfl
  frames_eq := rfl
  opens_eq := rfl
  closed {r u} hu := by
    have hdrop := object?_abandonAll m.stack m.openUpvalues m.heap r
    have hslot : m.abandon.heap.openSlot? r = none := by
      unfold Heap.openSlot? abandon
      dsimp only
      rw [hdrop]
      split
      · cases m.heap.object? r with
        | none => rfl
        | some o => exact Object.openSlot?_dropped m.stack o
      · rename_i hnot
        rw [hm.mem_iff, Option.not_isSome_iff_eq_none] at hnot
        exact hnot
    rw [Heap.openSlot?_eq hu, Object.openSlot?] at hslot
    simpa using hslot

theorem Tethered.closes_abandon (hm : m.Tethered) : m.Closes m.abandon := by
  intro r i hi
  obtain ⟨u, hu, -, rfl⟩ := Heap.openSlot?_eq_some hi
  have hmem : r ∈ m.openUpvalues := (hm.mem_iff r).2 (by rw [hi]; rfl)
  have hdrop := object?_abandonAll m.stack m.openUpvalues m.heap r
  rw [if_pos hmem, hu] at hdrop
  exact hdrop

/-! ## Closing variables -/

/-- From `m` to `m'` some variables were closed, each over the value in its slot. -/
structure Shuts (m m' : Machine) : Prop where
  tethered : m'.Tethered
  stack_eq : m'.stack = m.stack
  frames_eq : m'.frames = m.frames
  opens : ∀ {r i}, m.heap.openSlot? r = some i → m'.heap.openSlot? r = some i ∨
    ∃ v, m.stack.get? i = some v ∧ m'.heap.object? r = some (.upvalue ⟨false, i, v⟩)
  others : ∀ {r}, m.heap.openSlot? r = none → m'.heap.object? r = m.heap.object? r
  abandon_eq : m'.abandon = m.abandon

theorem Shuts.refl (hm : m.Tethered) : m.Shuts m := ⟨hm, rfl, rfl, Or.inl, fun _ => rfl, rfl⟩

theorem Shuts.trans {m'' : Machine} (h1 : m.Shuts m') (h2 : m'.Shuts m'') : m.Shuts m'' where
  tethered := h2.tethered
  stack_eq := h2.stack_eq.trans h1.stack_eq
  frames_eq := h2.frames_eq.trans h1.frames_eq
  opens {r i} hi := by
    rcases h1.opens hi with hi' | ⟨v, hv, ho⟩
    · rw [← h1.stack_eq]
      exact h2.opens hi'
    · refine Or.inr ⟨v, hv, (h2.others ?_).trans ho⟩
      rw [Heap.openSlot?_eq ho]
      rfl
  others {r} hr := by
    have ho := h1.others hr
    refine (h2.others ?_).trans ho
    unfold Heap.openSlot? at hr ⊢
    rwa [ho]
  abandon_eq := h2.abandon_eq.trans h1.abandon_eq

theorem Tethered.shuts_first (hm : m.Tethered) {us : List Ref} (hus : m.openUpvalues = r :: us)
    {u : Upvalue}
    (hu : m.heap.object? r = some (.upvalue u)) {v : Value} (hv : m.stack.get? u.slot = some v) :
    m.Shuts { m with
      heap := m.heap.setObject r (.upvalue { u with isOpen := false, closed := v })
      openUpvalues := us } := by
  have hnodup := hm.nodup
  rw [hus, List.nodup_cons] at hnodup
  have hobj := Heap.object?_close hu v
  have hopen : (m.heap.openSlot? r).isSome := (hm.mem_iff r).1 (hus ▸ List.mem_cons_self)
  refine ⟨⟨fun x => ?_, hnodup.2⟩, rfl, rfl, fun {x i} hi => ?_, fun {x} hx => ?_, ?_⟩
  · have hx := hm.mem_iff x
    rw [hus, List.mem_cons] at hx
    unfold Heap.openSlot? at hx ⊢
    dsimp only
    rw [hobj]
    by_cases hrx : r = x
    · subst hrx
      simp [hnodup.1, Object.openSlot?]
    · simp [hrx, Ne.symm hrx] at hx ⊢
      exact hx
  · by_cases hrx : r = x
    · subst hrx
      obtain ⟨u', hu', -, rfl⟩ := Heap.openSlot?_eq_some hi
      rw [hu] at hu'
      cases hu'
      exact Or.inr ⟨v, hv, by simp [hobj]⟩
    · refine Or.inl ?_
      unfold Heap.openSlot? at hi ⊢
      dsimp only
      rw [hobj, if_neg hrx]
      exact hi
  · have hrx : r ≠ x := by
      rintro rfl
      rw [hx] at hopen
      cases hopen
    rw [hobj, if_neg hrx]
  · unfold abandon
    dsimp only
    rw [hus, List.foldl_cons, abandonUpvalue_eq m.stack hu, hv]
    rfl

end Machine

namespace Exec

variable {α β : Type} {m m' : Machine} {host : Host}

/-- The computation comes to `Q`. If it ends early, what is left once the end is settled is what
abandoning a machine in `P` leaves. -/
def Tidies (P : Machine → Prop) (x : Exec α) (m : Machine) (Q : α → Machine → Prop) : Prop :=
  match x m with
  | .ok a m' => Q a m'
  | .error e m' => ∃ last, P last ∧
      (Machine.settle (.error e m' : EStateM.Result Halt Machine α)).2 = last.abandon

namespace Tidies

variable {P P' : Machine → Prop} {x : Exec α} {g : α → Exec β} {Q Q' : α → Machine → Prop}
  {R : β → Machine → Prop}

theorem of_ok {a : α} (hx : x m = .ok a m') (hQ : Q a m') : Tidies P x m Q := by
  unfold Tidies
  rw [hx]
  exact hQ

theorem of_error {e : Halt} {last : Machine} (hx : x m = .error e m') (hlast : P last)
    (heq : (Machine.settle (.error e m' : EStateM.Result Halt Machine α)).2 = last.abandon) :
    Tidies P x m Q := by
  unfold Tidies
  rw [hx]
  exact ⟨last, hlast, heq⟩

theorem pure {a : α} (hQ : Q a m) : Tidies P (pure a : Exec α) m Q := hQ

theorem mono (hx : Tidies P x m Q) (hP : ∀ {last}, P last → P' last)
    (hQ : ∀ {a m'}, x m = .ok a m' → Q a m' → Q' a m') : Tidies P' x m Q' := by
  unfold Tidies at *
  cases hxm : x m with
  | ok a m' =>
    rw [hxm] at hx
    exact hQ hxm hx
  | error e m' =>
    rw [hxm] at hx
    obtain ⟨last, hlast, heq⟩ := hx
    exact ⟨last, hP hlast, heq⟩

theorem bind (hx : Tidies P x m Q) (hg : ∀ a m', x m = .ok a m' → Q a m' → Tidies P (g a) m' R) :
    Tidies P (x >>= g) m R := by
  unfold Tidies at hx
  cases hxm : x m with
  | ok a m' =>
    rw [hxm] at hx
    have hga := hg a m' hxm hx
    unfold Tidies at *
    rwa [run_bind hxm]
  | error e m' =>
    rw [hxm] at hx
    obtain ⟨last, hlast, heq⟩ := hx
    cases e with
    | failed e => exact .of_error (run_bind_error hxm) hlast heq
    | fault f => exact .of_error (run_bind_error hxm) hlast heq

theorem bind_ok {a : α} (hx : x m = .ok a m') (hg : Tidies P (g a) m' R) : Tidies P (x >>= g) m R := by
  unfold Tidies at *
  rwa [run_bind hx]

theorem of_abandon {n : Machine} (hx : Tidies (·.abandon = n.abandon) x m Q) (hP : P n) :
    Tidies P x m Q := by
  unfold Tidies at *
  cases hxm : x m with
  | ok a m' =>
    rw [hxm] at hx
    exact hx
  | error e m' =>
    rw [hxm] at hx
    obtain ⟨last, hlast, heq⟩ := hx
    exact ⟨n, hP, heq.trans hlast⟩

/-- What leaves stack, calls and open variables alone ends in a fault, where it ends early. -/
theorem calm [hx : Calm x] (hP : ∀ m', m.Same m' → P m') : Tidies P x m fun _ m' => m.Same m' := by
  have hrun := hx.run m
  unfold Holds at hrun
  unfold Tidies
  cases hxm : x m with
  | ok a m' =>
    rw [hxm] at hrun
    exact hrun
  | error e m' =>
    rw [hxm] at hrun
    cases e with
    | failed e => exact hrun.elim
    | fault f => exact ⟨m', hP m' hrun, rfl⟩

end Tidies

/-- Closing goes on until a slot is below `last`, or to a fault. -/
theorem closeList_tidies (last : Nat) (us : List Ref) (hm : m.Tethered) (hus : m.openUpvalues = us) :
    Tidies (·.abandon = m.abandon) (closeList last us) m fun _ m' => m.Shuts m' ∧
    (last = 0 → m'.openUpvalues = []) := by
  induction us generalizing m with
  | nil => exact ⟨.refl hm, fun _ => hus⟩
  | cons r us ih =>
    obtain ⟨u, hu, -, -⟩ :=
      Heap.openSlot?_eq_some
      (Option.eq_some_of_isSome ((hm.mem_iff r).1 (hus ▸ List.mem_cons_self)))
    have hread : upvalue r m = .ok u m := upvalue_eq hu
    rw [closeList]
    refine .bind_ok hread ?_
    by_cases hle : last ≤ u.slot
    · rw [if_pos hle]
      refine .bind_ok (x := get) rfl ?_
      cases hv : m.stack.get? u.slot with
      | none => exact .of_error (e := .fault .machine) rfl rfl rfl
      | some v =>
        have hfirst := hm.shuts_first hus hu hv
        refine .bind_ok (x := need (some v)) rfl
          (.bind_ok (x := setObject r _) rfl (.bind_ok (x := modify _) rfl ?_))
        refine (ih hfirst.tethered rfl).mono (·.trans hfirst.abandon_eq) fun _ hrest => ?_
        exact ⟨hfirst.trans hrest.1, hrest.2⟩
    · rw [if_neg hle]
      exact ⟨.refl hm, fun hzero => by omega⟩

theorem closeFrom_tidies (last : Nat) (hm : m.Tethered) :
    Tidies (·.abandon = m.abandon) (closeFrom last) m fun _ m' => m.Shuts m' ∧
    (last = 0 → m'.openUpvalues = []) :=
  .bind_ok (x := get) rfl (closeList_tidies last m.openUpvalues hm rfl)

theorem abandon_of_opens (hopens : m.openUpvalues = []) :
    m.abandon = { m with stack := m.stack.cutTo 0, frames := #[] } := by
  obtain ⟨settings, heap, stack, frames, globals, openUpvalues⟩ := m
  obtain rfl : openUpvalues = [] := hopens
  rfl

theorem raise_tidies {P : Machine → Prop} {Q : α → Machine → Prop} (hm : m.Tethered)
    (hP : ∀ m', m.Same m' → P m') (failure : Failure) : Tidies P (raise failure : Exec α) m Q := by
  unfold raise
  refine .bind_ok (x := get) rfl (.bind (.calm hP) fun trace m1 _ hsame => ?_)
  have hm1 := hm.keeps hsame.toKeeps
  unfold resetStack
  refine .bind (Q := fun _ m2 => m2 = m1.abandon)
    (.bind ((closeFrom_tidies 0 hm1).of_abandon (hP m1 hsame)) ?_) ?_
  · rintro _ m2 - ⟨hshuts, hnone⟩
    refine .of_ok (x := modify _) rfl ?_
    rw [← hshuts.abandon_eq, abandon_of_opens (hnone rfl)]
  · rintro _ m2 - rfl
    exact .of_error (e := .failed _) rfl (hP m1 hsame) rfl

/-! ## Where turns end -/

end Exec

namespace Machine

variable {m₀ m m' : Machine} {host : Host} {s : Stack}

/-- The outermost call has the whole stack for its window. -/
def Grounded (m : Machine) : Prop := (m.frames.map (·.base))[0]? = some 0

/-- The stacks on which a turn from `m` can end early: up to two values were popped or one was
pushed, or a routine of the host was at work. -/
inductive Halfway (host : Host) (m : Machine) : Stack → Prop
  | popped {n : Nat} (few : n ≤ 2) : Halfway host m (m.stack.cutTo (m.stack.depth - n))
  | pushed (v : Value) : Halfway host m (m.stack.push v)
  | native {routine : Routine} {m' : Machine} (mem : routine ∈ host) (name : String) (vs : List Value)
      (same : m.Same m') : Halfway host m ((routine name vs).after m').stack

/-- In the middle of a turn from `m₀` the stack is `s`; calls have the same windows, and what was
open is open. -/
structure Gains (m₀ : Machine) (s : Stack) (m : Machine) : Prop where
  tethered : m.Tethered
  bases_eq : m.frames.map (·.base) = m₀.frames.map (·.base)
  stack_eq : m.stack = s
  opens : ∀ {r i}, m₀.heap.openSlot? r = some i → m.heap.openSlot? r = some i

theorem Tethered.gains (hm : m.Tethered) : m.Gains m.stack m := ⟨hm, rfl, rfl, id⟩

theorem Gains.same (hg : m₀.Gains s m) (hsame : m.Same m') : m₀.Gains s m' :=
  ⟨hg.tethered.keeps hsame.toKeeps, hsame.bases_eq.trans hg.bases_eq, hsame.stack_eq.trans hg.stack_eq,
    fun hi => (hsame.opened _).trans (hg.opens hi)⟩

theorem Gains.keeps (hg : m₀.Gains s m) (hk : m.Keeps m') : m₀.Gains m'.stack m' :=
  ⟨hg.tethered.keeps hk, hk.bases_eq.trans hg.bases_eq, rfl, fun hi =>
    (hk.opened _).trans (hg.opens hi)⟩

theorem Gains.capture {h' : Heap} {r : Ref} {slot : Nat} {above others : List Ref} (hg : m₀.Gains s m)
    (hlist : above ++ others = m.openUpvalues) (hfresh : m.heap.openSlot? r = none)
    (hslots : ∀ x, h'.openSlot? x = if x = r then some slot else m.heap.openSlot? x) :
    m₀.Gains s { m with heap := h', openUpvalues := above ++ r :: others } := by
  have hold : ∀ {x i}, m.heap.openSlot? x = some i → h'.openSlot? x = some i := by
    intro x i hi
    rw [hslots, if_neg]
    · exact hi
    · rintro rfl
      rw [hfresh] at hi
      cases hi
  have hnew : r ∉ above ++ others := by
    rw [hlist, hg.tethered.mem_iff, hfresh]
    simp
  refine ⟨⟨fun x => ?_, ?_⟩, hg.bases_eq, hg.stack_eq, fun hi => hold (hg.opens hi)⟩
  · have hx := hg.tethered.mem_iff x
    rw [← hlist] at hx
    dsimp only
    rw [hslots]
    by_cases hxr : x = r
    · simp [hxr]
    · simp only [hxr, if_false, List.mem_append, List.mem_cons, false_or] at hx ⊢
      exact hx
  · have hnodup := hg.tethered.nodup
    rw [← hlist] at hnodup
    exact List.perm_middle.nodup_iff.2 (List.nodup_cons.2 ⟨hnew, hnodup⟩)

/-- The machines on which a turn from `m₀` can end early. -/
def Stops (host : Host) (m₀ last : Machine) : Prop := ∃ s, m₀.Halfway host s ∧ m₀.Gains s last

/-- The machine goes on after a turn from `m`. What was open stays so, or is closed over the value
in its slot. -/
structure Proceeds (m m' : Machine) : Prop where
  tethered : m'.Tethered
  grounded : m'.Grounded
  opens : ∀ {r i}, m.heap.openSlot? r = some i → m'.heap.openSlot? r = some i ∨
    ∃ v, m.stack.get? i = some v ∧ m'.heap.object? r = some (.upvalue ⟨false, i, v⟩)

theorem Gains.proceeds (hg : m₀.Gains s m) (hground : m₀.Grounded) : m₀.Proceeds m :=
  ⟨hg.tethered, by unfold Grounded; rw [hg.bases_eq]; exact hground, fun hi => Or.inl (hg.opens hi)⟩

theorem Gains.proceeds_push (hg : m₀.Gains s m) (hground : m₀.Grounded) (f : Frame) :
    m₀.Proceeds { m with frames := m.frames.push f } := by
  have hp := hg.proceeds hground
  refine ⟨⟨hp.tethered.mem_iff, hp.tethered.nodup⟩, ?_, hp.opens⟩
  have hfirst := hp.grounded
  unfold Grounded at hfirst ⊢
  simp only [Array.map_push, Array.getElem?_push]
  split
  · obtain ⟨hlt, -⟩ := Array.getElem?_eq_some_iff.1 hfirst
    omega
  · exact hfirst

/-- How a turn from `m` comes out. -/
def Advances (host : Host) (m : Machine) : Exec.Progress → Machine → Prop
  | .running, m' => m.Proceeds m'
  | .finished, m' => ∃ last, m.Stops host last ∧ m' = last.abandon

end Machine

namespace Exec

variable {α β : Type} {m₀ m m' : Machine} {host : Host} {s : Stack} {x : Exec α} {a : α}
  {Q : α → Machine → Prop} {P : Machine → Prop}

/-! ## Instructions -/

theorem Tidies.row [Calm x] (hs : m₀.Halfway host s) (hg : m₀.Gains s m) :
    Tidies (m₀.Stops host) x m fun _ m' => m₀.Gains s m' :=
  (Tidies.calm fun _ hsame => ⟨s, hs, hg.same hsame⟩).mono id fun _ hsame => hg.same hsame

theorem Tidies.row_bind [Calm x] {g : α → Exec β} {R : β → Machine → Prop} (hs : m₀.Halfway host s)
    (hg : m₀.Gains s m)
    (h : ∀ a m', m₀.Gains s m' → Tidies (m₀.Stops host) (g a) m' R) :
    Tidies (m₀.Stops host) (x >>= g) m R :=
  (Tidies.row hs hg).bind fun a m' _ hg' => h a m' hg'

theorem Tidies.raise (hs : m₀.Halfway host s) (hg : m₀.Gains s m) (failure : Failure) :
    Tidies (m₀.Stops host) (raise failure) m Q :=
  raise_tidies hg.tethered (fun _ hsame => ⟨s, hs, hg.same hsame⟩) failure

theorem pop_tidies (m : Machine) :
    Tidies (· = m) pop m fun _ m' => m' = { m with stack := m.stack.cutTo (m.stack.depth - 1) } := by
  refine .bind_ok (x := get) rfl ?_
  unfold Stack.pop?
  cases hd : m.stack.depth with
  | zero => exact .of_error (e := .fault .machine) rfl rfl rfl
  | succ d =>
    cases hv : m.stack.cells[d]? with
    | none => exact .of_error (e := .fault .machine) (by simp only [hv]; rfl) rfl rfl
    | some v => exact .of_ok (a := v) (by simp only [hv]; rfl) rfl

theorem Tidies.discard (hx : Tidies P x m Q) : Tidies P (discard x) m fun _ m' => ∃ a, Q a m' := by
  have heq : (Functor.discard x : Exec PUnit) m =
    (x >>= fun _ => Pure.pure PUnit.unit : Exec PUnit) m := rfl
  have hbind : Tidies P (x >>= fun _ => Pure.pure PUnit.unit : Exec PUnit) m fun _ m' => ∃ a, Q a m' :=
    hx.bind fun a _ _ ha => .pure ⟨a, ha⟩
  unfold Tidies at *
  rwa [heq]

theorem halfway_start (host : Host) (m : Machine) : m.Halfway host m.stack :=
  .popped (n := 0) (by omega)

/-- With `n` values popped the computation ends early halfway through the turn, or leaves open what
was open and comes to a result in `ok`. -/
class Breaks (n : Nat) (ok : α → Prop) (x : Exec α) : Prop where
  run : ∀ {host : Host} {m₀ m : Machine}, n ≤ 2 → m₀.Gains (m₀.stack.cutTo (m₀.stack.depth - n)) m →
    Tidies (m₀.Stops host) x m fun a m' => ok a ∧ ∃ s, m₀.Gains s m'

/-- The computation pops a value. -/
class Pops (x : Exec α) : Prop where
  run : ∀ m, Tidies (· = m) x m fun _ m' => m' = { m with stack := m.stack.cutTo (m.stack.depth - 1) }

instance pops_pop : Pops pop := ⟨pop_tidies⟩

instance pops_discard_pop : Pops (discard pop) :=
  ⟨fun m => (pop_tidies m).discard.mono id fun _ ⟨_, h⟩ => h⟩

theorem Pops.pop [hx : Pops x] (hs : m₀.Halfway host s) (hg : m₀.Gains s m) :
    Tidies (m₀.Stops host) x m fun _ m' => m₀.Gains (s.cutTo (s.depth - 1)) m' := by
  refine (hx.run m).mono ?_ ?_
  · rintro _ rfl
    exact ⟨s, hs, hg⟩
  · rintro _ _ - rfl
    rw [← hg.stack_eq]
    have hkeeps : m.Keeps { m with stack := m.stack.cutTo (m.stack.depth - 1) } := .of_eq rfl rfl rfl
    exact hg.keeps hkeeps

section

variable {n : Nat} {ok : β → Prop} {g : α → Exec β}

theorem Breaks.row [Calm x] (hg : ∀ a, Breaks n ok (g a)) : Breaks n ok (x >>= g) :=
  ⟨fun hn h => .row_bind (.popped hn) h fun a _ h' => (hg a).run hn h'⟩

theorem Breaks.pops [hx : Pops x] (hn : n < 2) (hg : ∀ a, Breaks (n + 1) ok (g a)) :
    Breaks n ok (x >>= g) :=
  ⟨fun _ h => (hx.pop (.popped (by omega)) h).bind fun a _ _ h' => (hg a).run hn h'⟩

theorem Breaks.last (h : ∀ m, ∃ a m', x m = .ok a m' ∧ m.Keeps m') : Breaks n (fun _ => True) x := by
  refine ⟨fun {_ _ m} _ hg => ?_⟩
  obtain ⟨a, m', hx, hk⟩ := h m
  exact .of_ok hx ⟨trivial, _, hg.keeps hk⟩

instance breaks_calm_bind [Calm x] [∀ a, Breaks n ok (g a)] : Breaks n ok (x >>= g) :=
  .row inferInstance

instance breaks_pop_bind [Pops x] [∀ a, Breaks 1 ok (g a)] : Breaks 0 ok (x >>= g) :=
  .pops (by omega) inferInstance

instance breaks_second_pop_bind [Pops x] [∀ a, Breaks 2 ok (g a)] : Breaks 1 ok (x >>= g) :=
  .pops (by omega) inferInstance

instance breaks_raise (failure : Failure) : Breaks n ok (raise failure) :=
  ⟨fun hn h => .raise (.popped hn) h failure⟩

instance breaks_calm [Calm x] : Breaks n (fun _ => True) x :=
  ⟨fun hn h => (Tidies.row (.popped hn) h).mono id fun _ h' => ⟨trivial, _, h'⟩⟩

instance breaks_push (v : Value) : Breaks n (fun _ => True) (push v) :=
  .last fun _ => ⟨_, _, rfl, .of_eq rfl rfl rfl⟩

instance breaks_pure (b : β) : Breaks n (· = b) (pure b) := ⟨fun _ h => .pure ⟨rfl, _, h⟩⟩

instance breaks_bind_pure [hx : Breaks n (fun _ => True) x] (b : β) :
    Breaks n (· = b) (x >>= fun _ => pure b) :=
  ⟨fun hn h => (hx.run hn h).bind fun _ _ _ h' => .pure ⟨rfl, h'.2⟩⟩

instance breaks_ite {c : Prop} [Decidable c] {y z : Exec β} [hy : Breaks n ok y] [hz : Breaks n ok z] :
    Breaks n ok (if c then y else z) := by
  split
  · exact hy
  · exact hz

end

instance breaks_performArithmetic (op : Op) : Breaks 0 (fun _ => True) (performArithmetic op) := by
  refine .row fun top => ?_
  have : Calm (match top with | .number _ => peek 1 | _ => pure .nul) := by split <;> infer_instance
  refine .row fun second => ?_
  split
  · refine .pops (by omega) fun _ => .pops (by omega) fun _ => ?_
    split <;> infer_instance
  · infer_instance

instance breaks_performAdd : Breaks 0 (fun _ => True) performAdd := by
  refine .row fun b => .row fun a => ?_
  split
  · infer_instance
  · refine .row fun s? => .row fun t? => ?_
    split <;> infer_instance

instance breaks_performPrint (n : Nat) : Breaks 0 (fun _ => True) (performPrint n) := by
  refine .row fun vs => .row fun line => .last fun _ => ⟨_, _, rfl, .of_eq rfl rfl rfl⟩

instance breaks_setSlot (i : Nat) (v : Value) : Breaks 0 (fun _ => True) (setSlot i v) := by
  have : Breaks 0 (fun _ => True)
    (modify fun m : Machine => { m with stack := m.stack.put i v } : Exec Unit) :=
    .last fun _ => ⟨_, _, rfl, .of_eq rfl rfl rfl⟩
  unfold setSlot
  infer_instance

instance breaks_performSetGlobal : Breaks 0 (fun _ => True) performSetGlobal := by
  refine .row fun v => .row fun key => .row fun v => ⟨fun hn hg => .bind_ok (x := get) rfl ?_⟩
  rename_i m
  cases m.globals.set key v with
  | mk isNew globals =>
    dsimp only
    split
    · refine .bind_ok (x := set _) rfl (.raise (.popped hn) ?_ _)
      exact hg.same ⟨.of_eq rfl rfl rfl, rfl⟩
    · exact .of_ok (x := set _) rfl ⟨trivial, _, hg.keeps (.of_eq rfl rfl rfl)⟩

instance breaks_writeUpvalue (r : Ref) (v : Value) : Breaks 0 (fun _ => True) (writeUpvalue r v) := by
  refine ⟨fun hn hg => .bind (.row (.popped hn) hg) fun u m1 hu hg1 => ?_⟩
  obtain ⟨rfl, ho⟩ := upvalue_ok hu
  cases hopen : u.isOpen with
  | true => exact Breaks.run (x := setSlot u.slot v) hn hg1
  | false =>
    refine .of_ok (x := setObject r _) rfl
      ⟨trivial, _, hg1.keeps ⟨rfl, rfl, Heap.opened_setObject ho ?_⟩⟩
    simp [Object.openSlot?, hopen]

/-! ## Calls -/

theorem enterCall_tidies (hg : m₀.Gains s m) (hs : m₀.Halfway host s) (closure : Ref)
    (function : Option Ref) (argc : Nat) :
    Tidies (m₀.Stops host) (enterCall closure function argc) m fun _ m' => ∃ m1, m₀.Gains s m1 ∧
      m' = { m1 with frames := m1.frames.push ⟨closure, 0, m1.stack.depth - argc - 1⟩ } := by
  unfold enterCall
  refine .row_bind hs hg fun r m1 hg1 => .row_bind hs hg1 fun f m2 hg2 => ?_
  dsimp only
  split
  · exact .row_bind hs hg2 fun _ m3 hg3 =>
      .bind (.raise hs hg3 _ (Q := fun _ _ => False)) fun _ _ _ h => h.elim
  · refine .bind_ok (x := get) rfl ?_
    split
    · exact .bind (.raise hs hg2 _ (Q := fun _ _ => False)) fun _ _ _ h => h.elim
    · exact .of_ok (x := set _) rfl ⟨m2, hg2, rfl⟩

theorem Tidies.same_bind [Calm x] {g : α → Exec β} {R : β → Machine → Prop} (h0 : m₀.Tethered)
    (hsame : m₀.Same m)
    (h : ∀ a m', x m = .ok a m' → m₀.Same m' → Tidies (m₀.Stops host) (g a) m' R) :
    Tidies (m₀.Stops host) (x >>= g) m R := by
  refine .bind (.calm fun m' hm' => ⟨_, halfway_start host m₀, h0.gains.same (hsame.trans hm')⟩) ?_
  exact fun a m' hx hm' => h a m' hx (hsame.trans hm')

theorem callNative_tidies [hhost : SparesHost host] (h0 : m₀.Tethered) (hsame : m₀.Same m)
    (n : Native) (argc : Nat) :
    Tidies (m₀.Stops host) (callNative host n argc) m fun _ m' => ∃ s, m₀.Gains s m' := by
  have hs := halfway_start host m₀
  unfold callNative
  dsimp only
  split
  · exact .bind (.raise hs (h0.gains.same hsame) _ (Q := fun _ _ => False)) fun _ _ _ h => h.elim
  · refine .same_bind h0 hsame fun vs m2 _ hm2 => .same_bind h0 hm2 fun _ m3 _ hm3 =>
      .same_bind h0 hm3 fun routine m4 hneed hm4 => ?_
    have hmem := mem_host_of_need hneed
    have hserved := Machine.Halfway.native hmem n.name vs hm4
    have hroutine := hhost.routine routine hmem n.name vs m4
    unfold Holds at hroutine
    unfold after at hserved
    refine .bind (Q := fun _ m5 => ∃ s, m₀.Halfway host s ∧ m₀.Gains s m5) ?_
      fun a m5 _ ⟨s, hs5, hg5⟩ => ?_
    · unfold Tidies
      cases hrun : routine n.name vs m4 with
      | ok a m5 =>
        rw [hrun] at hroutine hserved
        exact ⟨_, hserved, (h0.gains.same hm4).keeps hroutine⟩
      | error e m5 =>
        rw [hrun] at hroutine hserved
        cases e with
        | failed e => exact hroutine.elim
        | fault f => exact ⟨m5, ⟨_, hserved, (h0.gains.same hm4).keeps hroutine⟩, rfl⟩
    · cases a with
      | error message => exact .raise hs5 hg5 _
      | ok result =>
        exact .bind_ok (x := cutTo _) rfl
          (.of_ok (x := push result) rfl ⟨_, hg5.keeps (.of_eq rfl rfl rfl)⟩)

theorem callValue_tidies [SparesHost host] (h0 : m₀.Tethered) (hground : m₀.Grounded)
    (hsame : m₀.Same m) (callee : Value)
    (argc : Nat) :
    Tidies (m₀.Stops host) (callValue host callee argc) m fun _ m' => m₀.Proceeds m' := by
  have hs := halfway_start host m₀
  have hrefuse : ∀ {m1 : Machine}, m₀.Same m1 → Tidies (m₀.Stops host)
      (do raise (.notCallable (← typeName callee)) : Exec Unit) m1 fun _ m' => m₀.Proceeds m' :=
    fun hm1 => .same_bind h0 hm1 fun _ _ _ hm2 => .raise hs (h0.gains.same hm2) _
  unfold callValue
  split
  · refine .same_bind h0 hsame fun o m1 _ hm1 => ?_
    split
    · refine (enterCall_tidies (h0.gains.same hm1) hs _ _ argc).mono id ?_
      rintro _ _ - ⟨m2, hg2, rfl⟩
      exact hg2.proceeds_push hground _
    · exact (callNative_tidies h0 hm1 _ argc).mono id fun _ h => h.elim fun _ hg => hg.proceeds hground
    · exact hrefuse hm1
  · exact hrefuse hsame

/-! ## Captured variables -/

theorem splitOpen_ok {slot : Nat} {us above others : List Ref}
    (hsplit : splitOpen slot us m = .ok (above, others) m') : m' = m ∧ above ++ others = us := by
  induction us generalizing above others with
  | nil =>
    cases hsplit
    exact ⟨rfl, rfl⟩
  | cons r us ih =>
    rw [splitOpen] at hsplit
    cases hu : upvalue r m with
    | error e m1 =>
      rw [run_bind_error hu] at hsplit
      cases hsplit
    | ok u m1 =>
      rw [run_bind hu] at hsplit
      obtain ⟨rfl, -⟩ := upvalue_ok hu
      by_cases hlt : slot < u.slot
      · rw [if_pos hlt] at hsplit
        cases hrest : splitOpen slot us m1 with
        | error e m2 =>
          rw [run_bind_error hrest] at hsplit
          cases hsplit
        | ok p m2 =>
          rw [run_bind hrest] at hsplit
          cases hsplit
          obtain ⟨rfl, heq⟩ := ih hrest
          exact ⟨rfl, by rw [List.cons_append, heq]⟩
      · rw [if_neg hlt] at hsplit
        cases hsplit
        exact ⟨rfl, rfl⟩

theorem capture_tidies (hg : m₀.Gains s m) (hs : m₀.Halfway host s) (slot : Nat) :
    Tidies (m₀.Stops host) (capture slot) m fun _ m' => m₀.Gains s m' := by
  have hopen : ∀ {m1 : Machine} {above others : List Ref}, m₀.Gains s m1 →
    above ++ others = m1.openUpvalues →
      Tidies (m₀.Stops host) (do
        let r ← allocate (.upvalue { isOpen := true, slot, closed := .nul })
        modify fun m => { m with openUpvalues := above ++ r :: others }
        Pure.pure r) m1 fun _ m' => m₀.Gains s m' := by
    intro m1 above others hg1 hlist
    obtain ⟨hfresh, -, hslots⟩ :=
      m1.heap.openSlot?_allocate m1.roots (.upvalue { isOpen := true, slot, closed := .nul })
    have hmade : allocate (.upvalue { isOpen := true, slot, closed := .nul }) m1 =
        .ok (m1.heap.allocate m1.roots (.upvalue { isOpen := true, slot, closed := .nul })).1
          { m1 with heap := (m1.heap.allocate m1.roots
            (.upvalue { isOpen := true, slot, closed := .nul })).2 } := rfl
    have hgains := hg1.capture hlist (Heap.openSlot?_of_size_le hfresh) hslots
    exact .bind_ok hmade (.bind_ok (x := modify _) rfl (.pure hgains))
  unfold capture
  refine .bind_ok (x := get) rfl (.bind (.row hs hg) fun p m1 hsplit hg1 => ?_)
  obtain ⟨above, others⟩ := p
  obtain ⟨rfl, hlist⟩ := splitOpen_ok hsplit
  cases others with
  | nil => exact .bind_ok (x := Pure.pure none) rfl (hopen hg1 hlist)
  | cons r others =>
    refine .bind (.row hs hg1) fun u m2 hu hg2 => ?_
    obtain ⟨rfl, -⟩ := upvalue_ok hu
    refine .bind_ok (x := Pure.pure _) rfl ?_
    by_cases hslot : (u.slot == slot) = true
    · rw [if_pos hslot]
      exact .pure hg2
    · rw [if_neg hslot]
      exact hopen hg2 hlist

theorem fillUpvalues_tidies (hg : m₀.Gains s m) (hs : m₀.Halfway host s) (closure : Ref) (f : Frame)
    (count i : Nat) :
    Tidies (m₀.Stops host) (fillUpvalues closure f count i) m fun _ m' => m₀.Gains s m' := by
  induction count generalizing i m with
  | zero => exact .pure hg
  | succ count ih =>
    rw [fillUpvalues]
    refine .row_bind hs hg fun kind m1 hg1 => .row_bind hs hg1 fun index m2 hg2 => ?_
    dsimp only
    split
    on_goal 1 =>
      refine .bind (capture_tidies hg2 hs _) fun r m3 _ hg3 => ?_
      refine .row_bind hs hg3 fun captured m4 hg4 => ?_
    on_goal 2 => refine .row_bind hs hg2 fun captured m4 hg4 => ?_
    all_goals
      refine .bind (.row hs hg4) fun o m5 hobject hg5 => ?_
      have hm5 : m5 = m4 := need_ok hobject
      subst hm5
      have ho : m5.heap.object? closure = some o := need_eq_some hobject
      split
      · refine .bind_ok (x := setObject _ _) rfl (ih ?_ (i + 1))
        exact hg5.same ⟨⟨rfl, rfl, Heap.opened_setObject ho rfl⟩, rfl⟩
      · exact .row_bind hs hg5 fun _ m6 hg6 => ih hg6 (i + 1)

instance breaks_performClosure : Breaks 0 (fun _ => True) performClosure := by
  refine .row fun v => ?_
  dsimp only
  split
  all_goals
    refine .row fun r => .row fun closure => ⟨fun {host m₀ m} _ hg => .bind_ok (x := push _) rfl ?_⟩
    have hpushed : m₀.Halfway host (m.stack.push (.object closure)) := hg.stack_eq ▸ .pushed _
    have hkeeps : m.Keeps { m with stack := m.stack.push (.object closure) } := .of_eq rfl rfl rfl
    refine .row_bind hpushed (hg.keeps hkeeps) fun f m1 hg1 => .row_bind hpushed hg1 fun o m2 hg2 => ?_
    split
    · exact (fillUpvalues_tidies hg2 hpushed closure f _ 0).mono id fun _ h => ⟨trivial, _, h⟩
    · exact (Tidies.row hpushed hg2).mono id fun _ h => ⟨trivial, _, h⟩

/-! ## Closing and returning -/

/-- Variables that are closed below the top were open before the turn, with the same value in their
slot. -/
theorem get?_of_cutTo {i n : Nat} {v : Value} (hn : n ≤ s.depth)
    (hv : (s.cutTo n).get? i = some v) : s.get? i = some v := by
  have hlt : i < n := Stack.lt_of_get? hv
  unfold Stack.get? Stack.cutTo at hv
  unfold Stack.get?
  dsimp only at hv
  rw [if_pos hlt] at hv
  rw [if_pos (Nat.lt_of_lt_of_le hlt hn)]
  exact hv

theorem closeUpvalue_tidies (hg : m₀.Gains m₀.stack m) (hground : m₀.Grounded) :
    Tidies (m₀.Stops host) (do
      closeFrom ((← get).stack.depth - 1)
      discard pop
      Pure.pure Progress.running) m (m₀.Advances host) := by
  have hstop : m₀.Stops host m := ⟨_, halfway_start host m₀, hg⟩
  refine .bind_ok (x := get) rfl (.bind ((closeFrom_tidies _ hg.tethered).of_abandon hstop) ?_)
  rintro _ m1 - ⟨hshuts, -⟩
  refine .bind (Tidies.of_abandon (n := m) ((pop_tidies m1).discard.mono ?_ fun _ => id) hstop) ?_
  · rintro _ rfl
    exact hshuts.abandon_eq
  · rintro _ _ - ⟨_, rfl⟩
    refine ⟨⟨hshuts.tethered.mem_iff, hshuts.tethered.nodup⟩, ?_, fun {r i} hi => ?_⟩
    · unfold Machine.Grounded
      dsimp only
      rw [hshuts.frames_eq, hg.bases_eq]
      exact hground
    · have hopens := hshuts.opens (hg.opens hi)
      rwa [hg.stack_eq] at hopens

theorem performReturn_tidies (hg : m₀.Gains m₀.stack m) (hground : m₀.Grounded) :
    Tidies (m₀.Stops host) performReturn m (m₀.Advances host) := by
  have hs : m₀.Halfway host (m₀.stack.cutTo (m₀.stack.depth - 1)) := .popped (by omega)
  unfold performReturn
  refine .bind (Pops.pop (halfway_start host m₀) hg) fun result m1 _ hg1 =>
    .bind (.row hs hg1) fun f m2 hframe hg2 => ?_
  have hm2 : m2 = m1 := need_ok hframe
  subst hm2
  have hback : m2.frames.back? = some f := need_eq_some hframe
  have hfirst : (m2.frames.map (·.base))[0]? = some 0 := hg2.bases_eq ▸ hground
  refine .bind ((closeFrom_tidies f.base hg2.tethered).of_abandon ⟨_, hs, hg2⟩) ?_
  rintro _ m3 - ⟨hshuts, hnone⟩
  refine .bind_ok (x := modify _) rfl (.bind_ok (x := get) rfl ?_)
  split
  · rename_i hempty
    refine .bind_ok (x := cutTo 0) rfl (.pure ⟨m2, ⟨_, hs, hg2⟩, ?_⟩)
    have hpop : m3.frames.pop = #[] := by simpa using hempty
    -- the only call has the whole stack for its window
    have hbase : f.base = 0 := by
      have hsize : m2.frames.size - 1 = 0 := by
        rw [← hshuts.frames_eq, ← Array.size_pop, hpop]
        rfl
      rw [Array.back?, hsize] at hback
      rw [Array.getElem?_map, hback] at hfirst
      exact Option.some.inj hfirst
    rw [← hshuts.abandon_eq, abandon_of_opens (hnone hbase), ← hpop]
  · rename_i hmore
    refine .bind_ok (x := cutTo f.base) rfl (.bind_ok (x := push result) rfl (.pure ?_))
    refine ⟨⟨hshuts.tethered.mem_iff, hshuts.tethered.nodup⟩, ?_, fun {r i} hi => ?_⟩
    · rw [← hshuts.frames_eq] at hfirst
      unfold Machine.Grounded
      dsimp only
      rw [Array.getElem?_map] at hfirst ⊢
      rw [Array.getElem?_pop, if_pos]
      · exact hfirst
      · have hsize : m3.frames.pop.size ≠ 0 :=
          fun hzero => hmore (by simpa using Array.eq_empty_of_size_eq_zero hzero)
        rw [Array.size_pop] at hsize
        omega
    · rcases hshuts.opens (hg2.opens hi) with hopen | ⟨v, hv, ho⟩
      · exact Or.inl hopen
      · rw [hg2.stack_eq] at hv
        exact Or.inr ⟨v, get?_of_cutTo (by omega) hv, ho⟩

/-! ## Turns -/

set_option synthInstance.maxSize 256 in
theorem perform_tidies [SparesHost host] (h0 : m₀.Tethered) (hground : m₀.Grounded)
    (hsame : m₀.Same m) (op : Op) :
    Tidies (m₀.Stops host) (perform host op) m (m₀.Advances host) := by
  have hg := h0.gains.same hsame
  have hgoes : ∀ {x : Exec Progress}, Breaks 0 (· = .running) x →
      Tidies (m₀.Stops host) x m (m₀.Advances host) := by
    refine fun hx => (hx.run (by omega) hg).mono id ?_
    rintro _ _ - ⟨rfl, _, hg'⟩
    exact hg'.proceeds hground
  unfold perform
  dsimp only
  cases op with
  | getGlobal =>
    refine hgoes (.row fun v => .row fun key => .row fun m => ?_)
    split <;> infer_instance
  | defineGlobal =>
    refine hgoes (.row fun _ => .row fun key => .row fun v => ?_)
    have : Calm (modify fun m : Machine =>
      { m with globals := (m.globals.set key v).2 } : Exec Unit) :=
      ⟨fun _ => ⟨.of_eq rfl rfl rfl, rfl⟩⟩
    infer_instance
  | negate =>
    refine hgoes (.row fun v => ?_)
    split <;> infer_instance
  | call =>
    exact .same_bind h0 hsame fun _ m1 _ hm1 => .same_bind h0 hm1 fun _ m2 _ hm2 =>
      .bind (callValue_tidies h0 hground hm2 _ _) fun _ m3 _ hm3 => .pure hm3
  | closeUpvalue => exact closeUpvalue_tidies hg hground
  | «return» => exact performReturn_tidies hg hground
  | _ => exact hgoes (by dsimp only; infer_instance)

/-- **A turn** goes on, finishes the script, or ends early on a machine that is halfway through
it. -/
theorem step_tidies (host : Host) [SparesHost host] (hm : m.Tethered) (hground : m.Grounded) :
    Tidies (m.Stops host) (step host) m (m.Advances host) := by
  have hs := halfway_start host m
  unfold step
  refine .bind_ok (x := get) rfl ?_
  dsimp only
  split
  · refine .bind_ok (x := modify _) rfl
      (.bind (.raise (s := m.stack) hs ?_ _ (Q := fun _ _ => False)) fun _ _ _ h => h.elim)
    exact hm.gains.same ⟨.of_eq rfl rfl rfl, rfl⟩
  · refine .bind_ok (x := get) rfl ?_
    have hstart := Machine.Same.refl m
    split
    on_goal 1 => refine .same_bind hm hstart fun _ m1 _ hstart => ?_
    all_goals
      refine .same_bind hm hstart fun byte m2 _ hm2 => ?_
      split
      · exact perform_tidies hm hground hm2 _
      · exact .raise hs (hm.gains.same hm2) _

end Exec

end Parlance
