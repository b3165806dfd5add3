/-
  The natives of the language keep to values.
-/
import Mathlib.Data.List.Forall2
import Parlance.Native.Builtins
import Parlance.Proofs.Machine.Runs

namespace Parlance

namespace Machine

variable {V : Vetting} {low : Nat} {m m' m'' : Machine}

/-! ## What routines do -/

theorem Sound.serves_refl (hs : m.Sound) : m.Serves V m.stack.depth m where
  sound := hs
  steady := .refl _
  vets hl ho := Or.inl ⟨hl, ho⟩
  low_le := Nat.le_refl _
  frames_eq := rfl
  opens_eq := rfl

theorem Serves.mono {low' : Nat} (h : m.Serves V low m') (hle : low' ≤ low) : m.Serves V low' m' :=
  { h with low_le := Nat.le_trans hle h.low_le }

theorem Serves.trans (h : m.Serves V low m') (h' : m'.Serves V low m'') : m.Serves V low m'' where
  sound := h'.sound
  steady := h.steady.trans h'.steady
  vets {x o} hl ho := by
    rcases h'.vets hl ho with ⟨hl', ho'⟩ | hx
    · rcases h.vets hl' ho' with hold | hx
      · exact Or.inl hold
      · exact Or.inr (hx.steady h'.steady h.sound.heap h'.sound.heap hl' hl ho' ho id)
    · exact Or.inr hx
  low_le := h'.low_le
  frames_eq := h'.frames_eq.trans h.frames_eq
  opens_eq := h'.opens_eq.trans h.opens_eq

theorem Sound.serves_evolves (hs : m.Sound) {h : Heap} (he : m.heap.Evolves m.roots.refs h)
    (hadds : Heap.Adds V.Stores m.heap h) : m.Serves V m.stack.depth { m with heap := h } :=
  { hs.serves_refl (V := V) with
    sound := hs.evolves he (hadds.addsNoOpen fun _ ho => ho.1)
    steady := he.steady
    vets := fun {x o} hl ho => by
      by_cases hlt : x.serial < m.heap.cells.size
      · obtain ⟨hl', heq⟩ := he.old hl hlt
        exact Or.inl ⟨hl', heq ▸ ho⟩
      · exact Or.inr (Heap.vets_of_welcomes (hadds hl (Nat.not_lt.1 hlt) ho).2) }

theorem Sound.serves_intern (hs : m.Sound) (s : String) :
    ∃ key m', Exec.intern s m = .ok key m' ∧ m.Serves V m.stack.depth m' ∧ m'.heap.Live key.ref := by
  have hi := hs.interned s
  exact ⟨_, _, rfl, hs.serves_evolves hi.toEvolves (hi.adds V.admits_stores), hi.live_key⟩

/-- The heap, the calls and the open variables are as they were. -/
theorem Sound.serves_of_eq (hs : m'.Sound) (hheap : m'.heap = m.heap) (hframes : m'.frames = m.frames)
    (hopens : m'.openUpvalues = m.openUpvalues) (hlow : low ≤ m'.stack.depth) : m.Serves V low m' where
  sound := hs
  steady := by
    rw [hheap]
    exact .refl _
  vets hl ho := by
    rw [hheap] at hl ho
    exact Or.inl ⟨hl, ho⟩
  low_le := hlow
  frames_eq := hframes
  opens_eq := hopens

theorem Sound.serves_push (hs : m.Sound) {v : Value} (hv : m.heap.LiveValue v) :
    m.Serves V m.stack.depth { m with stack := m.stack.push v } :=
  (hs.push hv).serves_of_eq rfl rfl rfl (by simp only [Stack.depth_push]; omega)

theorem mem_refs_push (hs : m.Sound) (r : Ref) :
    r ∈ (roots { m with stack := m.stack.push (.object r) }).refs := by
  refine mem_refs.2 (Or.inl ?_)
  rw [Stack.toList_push hs.depth_le]
  exact List.mem_append_right _ List.mem_cons_self

/-- A native is bound while its name and it are on the stack. -/
theorem Sound.serves_defineNative (hs : m.Sound) {name : String} {arity : Int} {code : Nat}
    (hn : V.native ⟨name, arity, some code⟩) :
    ∃ r m', (Exec.defineNative name arity code) m = .ok r m' ∧
      m.Serves V m.stack.depth m' ∧ m'.heap.Live r := by
  -- the name
  have hi := hs.interned name
  have hserves1 := hs.serves_evolves (V := V) hi.toEvolves (hi.adds V.admits_stores)
  generalize hkey : m.heap.intern m.roots name = interned at hi hserves1
  obtain ⟨key, h1⟩ := interned
  dsimp only at hi hserves1
  have hserves2 :=
    hserves1.trans (hserves1.sound.serves_push (V := V) (v := .object key.ref) hi.live_key)
  have hroot := mem_refs_push hserves1.sound key.ref
  dsimp only at hserves2 hroot
  -- the native
  generalize hm2 : ({ m with heap := h1, stack := m.stack.push (.object key.ref) } : Machine) =
    m2 at hserves2 hroot
  have hdepth : m2.stack.depth = m.stack.depth + 1 := by
    subst hm2
    exact Stack.depth_push ..
  have ha := hserves2.sound.allocated (o := .native ⟨name, arity, some code⟩) (by simp)
    (by simp [Object.children])
  have hserves3 := hserves2.trans ((hserves2.sound.serves_evolves (V := V) ha.toEvolves
    (ha.adds (F := V.Stores) ⟨trivial, hn⟩)).mono (by omega))
  generalize hnative : m2.heap.allocate m2.roots (.native ⟨name, arity, some code⟩) =
    allocated at ha hserves3
  obtain ⟨r, h3⟩ := allocated
  dsimp only at ha hserves3
  have hlive : h3.Live key.ref := ha.live_of_mem hroot
  have hobj : h3.object? key.ref = some (.text key.text key.hash) := by
    rw [ha.object_eq (by subst hm2; exact hi.live_key) hlive]
    subst hm2
    exact hi.object_text
  -- the global, and the stack as it was
  have hs4 := (hserves3.sound.push (v := .object r) ha.live_new).setGlobal (k := key)
    (v := .object r) hlive hobj ha.live_new
  obtain ⟨_, -, hpop⟩ :=
    Exec.pop_eq hs4.depth_le (n := m.stack.depth + 1) (by simp only [Stack.depth_push]; omega)
  have hs5 := hs4.cutTo (n := m.stack.depth + 1) (by simp only [Stack.depth_push]; omega)
  obtain ⟨_, -, hpop'⟩ := Exec.pop_eq hs5.depth_le (n := m.stack.depth) rfl
  have hs6 := hs5.cutTo (n := m.stack.depth) (by simp only [Stack.cutTo]; omega)
  refine ⟨r, _, ?_, hserves3.trans (hs6.serves_of_eq rfl rfl rfl (Nat.le_refl _)), ha.live_new⟩
  have hintern : Exec.intern name m = .ok key { m with heap := h1 } := by
    have hdef : Exec.intern name m = .ok (m.heap.intern m.roots name).1
      { m with heap := (m.heap.intern m.roots name).2 } := rfl
    rw [hdef, hkey]
  have hpush : Exec.push (.object key.ref) { m with heap := h1 } = .ok () m2 := by
    subst hm2
    rfl
  have hallocate : Exec.allocate (.native ⟨name, arity, some code⟩) m2 =
      .ok r { m2 with heap := h3 } := by
    have hdef : Exec.allocate (.native ⟨name, arity, some code⟩) m2 =
      .ok (m2.heap.allocate m2.roots (.native ⟨name, arity, some code⟩)).1
        { m2 with heap := (m2.heap.allocate m2.roots (.native ⟨name, arity, some code⟩)).2 } := rfl
    rw [hdef, hnative]
  unfold Exec.defineNative
  rw [Exec.run_bind hintern, Exec.run_bind hpush, Exec.run_bind hallocate,
    Exec.run_bind (x := Exec.push _) rfl, Exec.run_bind (x := modify _) rfl,
    Exec.run_bind (x := discard Exec.pop) (Exec.run_bind hpop),
    Exec.run_bind (x := discard Exec.pop) (Exec.run_bind hpop')]
  rfl

end Machine

namespace Native

variable {v : Value} {V : Vetting} {m : Machine}

/-! ## Arguments -/

/-- The argument is of the kind. -/
def Argument.Fits (h : Heap) : Kind → Argument → Prop
  | .number, .number _ | .whole, .whole _ | .text, .text _ | .truth, .truth _ => True
  | .number, _ | .whole, _ | .text, _ | .truth, _ => False
  | _, .any v => h.LiveValue v
  | _, _ => False

theorem exists_text (hr : m.heap.Readable) (hl : m.heap.LiveValue v) :
    ∃ s, Exec.text v m = .ok s m := by
  obtain ⟨s, hs⟩ := Option.ne_none_iff_exists'.1 (hr hl)
  have hdef : Exec.text v m = Exec.need (m.heap.text? v) m := rfl
  rw [hdef, hs]
  exact ⟨s, rfl⟩

theorem convert_spec (hr : m.heap.Readable) (k : Kind) (hl : m.heap.LiveValue v) :
    ∃ a, convert k v m = .ok a m ∧ ∀ b, a = .ok b → b.Fits m.heap k := by
  obtain ⟨s, hs⟩ := exists_text hr hl
  obtain ⟨t, ht⟩ := Exec.exists_typeName hl
  have hfail : ∀ (e : String → Except String Argument) (x : Exec String) (s : String),
      (∀ s, ∃ e', e s = .error e') → x m = .ok s m →
      ∃ a, (x >>= fun s => pure (e s)) m = EStateM.Result.ok a m ∧ ∀ b, a = .ok b →
      b.Fits m.heap k := by
    intro e x s he hx
    obtain ⟨e', he'⟩ := he s
    refine ⟨e s, Exec.run_bind hx, fun b hb => ?_⟩
    rw [he'] at hb
    cases hb
  have herror : ∀ what s : String, ∃ e',
    (Except.error ("type incorrect : " ++ what ++ ", reçu " ++ s) :
      Except String Argument) = .error e' := fun _ _ => ⟨_, rfl⟩
  unfold convert
  dsimp only
  split
  · exact ⟨_, rfl, fun b hb => by cases hb; trivial⟩
  · exact hfail _ _ _ (herror _) ht
  · split
    · exact ⟨_, rfl, fun b hb => by cases hb; trivial⟩
    · exact hfail _ _ _ (herror _) hs
  · exact hfail _ _ _ (herror _) hs
  · rename_i r
    rw [Exec.run_bind (x := get) (a := m) rfl]
    cases m.heap.chars? r with
    | some chars => exact ⟨_, rfl, fun b hb => by cases hb; trivial⟩
    | none => exact hfail _ _ _ (herror _) ht
  · exact hfail _ _ _ (herror _) ht
  · exact ⟨_, rfl, fun b hb => by cases hb; trivial⟩
  · exact hfail _ _ _ (herror _) ht
  · refine ⟨_, rfl, fun b hb => ?_⟩
    cases hb
    cases k <;> first | exact hl | (exfalso; simp_all)

/-- Arguments are converted to the kinds of the parameters. -/
theorem convertAll_spec (hr : m.heap.Readable) {ks : List Kind} {vs : List Value}
    (hlen : vs.length = ks.length) (hl : ∀ v ∈ vs, m.heap.LiveValue v) (position : Nat) :
    ∃ a, convertAll position ks vs m = .ok a m ∧ ∀ as, a = .ok as →
      List.Forall₂ (Argument.Fits m.heap) ks as := by
  induction ks generalizing vs position with
  | nil =>
    refine ⟨.ok [], by unfold convertAll; rfl, fun as has => ?_⟩
    cases has
    exact .nil
  | cons k ks ih =>
    cases vs with
    | nil => simp at hlen
    | cons v vs =>
      obtain ⟨a, ha, hfits⟩ := convert_spec hr k (hl v List.mem_cons_self)
      obtain ⟨as, has, hall⟩ :=
        ih (by simpa using hlen) (fun w hw => hl w (List.mem_cons_of_mem _ hw)) (position + 1)
      rw [convertAll, Exec.run_bind ha]
      cases a with
      | error e => exact ⟨_, rfl, fun _ h => by cases h⟩
      | ok b =>
        dsimp only
        rw [Exec.run_bind has]
        cases as with
        | error e => exact ⟨_, rfl, fun _ h => by cases h⟩
        | ok bs =>
          refine ⟨.ok (b :: bs), rfl, fun _ h => ?_⟩
          cases h
          exact .cons (hfits b rfl) (hall bs rfl)

/-! ## Host functions -/

/-- The result refers to nothing that is gone. -/
def Result.Live (h : Heap) : Result → Prop
  | .any v => h.LiveValue v
  | _ => True

/-- A host function that serves the machine, and takes nothing from the stack. It gives up only if
the vetting is not strict. -/
def HostFunction.Tame (V : Vetting) (f : HostFunction) : Prop :=
  ∀ as (m : Machine), m.Sound → m.heap.Readable →
    List.Forall₂ (Argument.Fits m.heap) f.signature.arguments as →
    match f.run as m with
    | .ok r m' => m.Serves V m.stack.depth m' ∧ ∀ x, r = .ok x → x.Live m'.heap
    | .error (.fault _) m' => ¬ V.strict ∧ m.Serves V m.stack.depth m'
    | .error (.failed _) _ => False

theorem Result.toValue_spec (hs : m.Sound) {r : Result} (hr : r.Live m.heap) :
    ∃ v m', r.toValue m = .ok v m' ∧ m.Serves V m.stack.depth m' ∧ m'.heap.LiveValue v := by
  cases r with
  | text s =>
    obtain ⟨key, m', hintern, hserves, hlive⟩ := hs.serves_intern s
    exact ⟨.object key.ref, m', Exec.run_bind hintern, hserves, hlive⟩
  | any v => exact ⟨v, m, rfl, hs.serves_refl, hr⟩
  | _ => exact ⟨_, m, rfl, hs.serves_refl, trivial⟩

/-- **A tame host function makes a tame native.** -/
theorem HostFunction.Tame.routine {f : HostFunction} (hf : f.Tame V) :
    Parlance.Tame V f.signature.arguments.length f.routine := by
  intro name vs m hs hr hvs hlen
  obtain ⟨a, ha, hfits⟩ := convertAll_spec hr (by exact_mod_cast hlen (by omega))
    (fun v hv => hs.stack (Stack.mem_of_top? hvs hv)) 1
  have hlow : m.stack.depth - vs.length - 1 ≤ m.stack.depth := by omega
  have hfail : ∀ (e : String) (m' : Machine), m.Serves V m.stack.depth m' →
      m.Serves V (m.stack.depth - vs.length - 1) m' ∧
        ∀ v, (Except.error (name ++ " : " ++ e) : Except String Value) = .ok v → m'.heap.LiveValue v :=
    fun e m' h => ⟨h.mono hlow, fun v hv => by cases hv⟩
  unfold HostFunction.routine
  rw [Exec.run_bind ha]
  cases a with
  | error e => exact hfail e m hs.serves_refl
  | ok as =>
    have hrun := hf as m hs hr (hfits as rfl)
    dsimp only
    cases hres : f.run as m with
    | error e m' =>
      have herror : ∀ (g : Except String Result → Exec (Except String Value)),
          (f.run as >>= g) m = .error e m' := by
        intro g
        show EStateM.bind (f.run as) g m = _
        rw [EStateM.bind, hres]
      rw [hres] at hrun
      rw [herror]
      cases e with
      | failed e => exact hrun
      | fault e => exact ⟨hrun.1, hrun.2.mono hlow⟩
    | ok r m1 =>
      rw [hres] at hrun
      rw [Exec.run_bind hres]
      obtain ⟨hserves, hlive⟩ := hrun
      cases r with
      | error e => exact hfail e m1 hserves
      | ok r =>
        obtain ⟨v, m', hvalue, hserves', hlive'⟩ := Result.toValue_spec hserves.sound (hlive r rfl)
        dsimp only
        rw [Exec.run_bind hvalue]
        exact ⟨(hserves.trans (hserves'.mono hserves.low_le)).mono hlow,
          fun w hw => by cases hw; exact hlive'⟩

/-! ## The natives of the language -/

theorem HostFunction.tame_of_eq {f : HostFunction}
    (h : ∀ as (m : Machine), m.heap.Readable →
      List.Forall₂ (Argument.Fits m.heap) f.signature.arguments as →
      ∃ r, f.run as m = .ok r m ∧ ∀ x, r = .ok x → x.Live m.heap) : f.Tame V := by
  intro as m hs hr hfits
  obtain ⟨r, hrun, hlive⟩ := h as m hr hfits
  rw [hrun]
  exact ⟨hs.serves_refl, hlive⟩

theorem onNumber_tame (f : Float → Float) : (onNumber f).Tame V := by
  refine HostFunction.tame_of_eq ?_
  rintro _ m - (_ | @⟨_, a, _, _, ha, _ | _⟩)
  cases a with
  | number x => exact ⟨_, rfl, fun y hy => by cases hy; trivial⟩
  | _ => exact ha.elim

theorem onNumbers_tame (f : Float → Float → Float) : (onNumbers f).Tame V := by
  refine HostFunction.tame_of_eq ?_
  rintro _ m - (_ | @⟨_, a, _, _, ha, _ | @⟨_, b, _, _, hb, _ | _⟩⟩)
  cases a with
  | number x =>
    cases b with
    | number y => exact ⟨_, rfl, fun z hz => by cases hz; trivial⟩
    | _ => exact hb.elim
  | _ => exact ha.elim

theorem onText_tame (f : String → String) : (onText f).Tame V := by
  refine HostFunction.tame_of_eq ?_
  rintro _ m - (_ | @⟨_, a, _, _, ha, _ | _⟩)
  cases a with
  | text s => exact ⟨_, rfl, fun y hy => by cases hy; trivial⟩
  | _ => exact ha.elim

theorem onAny_tame {f : Value → Exec String}
    (hf : ∀ {m : Machine} {v : Value}, m.heap.Readable → m.heap.LiveValue v → ∃ s, f v m = .ok s m) :
    (onAny f).Tame V := by
  refine HostFunction.tame_of_eq ?_
  rintro _ m hr (_ | @⟨_, a, _, _, ha, _ | _⟩)
  cases a with
  | any v =>
    obtain ⟨s, hs⟩ := hf hr ha
    exact ⟨_, Exec.run_bind hs, fun y hy => by cases hy; trivial⟩
  | _ => exact ha.elim

theorem lengthOf_tame : lengthOf.Tame V := by
  refine HostFunction.tame_of_eq ?_
  rintro _ m - (_ | @⟨_, a, _, _, ha, _ | _⟩)
  cases a with
  | text s => exact ⟨_, rfl, fun y hy => by cases hy; trivial⟩
  | _ => exact ha.elim

theorem squareRoot_tame : squareRoot.Tame V := by
  refine HostFunction.tame_of_eq ?_
  rintro _ m - (_ | @⟨_, a, _, _, ha, _ | _⟩)
  cases a with
  | number x =>
    by_cases hx : x < 0
    · exact ⟨_, by simp only [squareRoot, hx, if_true]; rfl, fun y hy => by cases hy⟩
    · exact ⟨_, by simp only [squareRoot, hx, if_false]; rfl, fun y hy => by cases hy; trivial⟩
  | _ => exact ha.elim

theorem toNumber_spec {m : Machine} (hl : m.heap.LiveValue v) :
    ∃ r, toNumber v m = .ok r m ∧ ∀ x, r = .ok x → x.Live m.heap := by
  obtain ⟨t, ht⟩ := Exec.exists_typeName hl
  have hnot : ∃ r, (do
      pure (.error ("impossible de convertir une valeur de type '" ++ (← Exec.typeName v) ++
        "' en nombre")) :
      Exec (Except String Result)) m = .ok r m ∧ ∀ x, r = .ok x → x.Live m.heap :=
    ⟨_, Exec.run_bind ht, fun x hx => by cases hx⟩
  unfold toNumber
  cases v with
  | number x => exact ⟨_, rfl, fun y hy => by cases hy; trivial⟩
  | bool b => exact ⟨_, rfl, fun y hy => by cases hy; trivial⟩
  | nul => exact hnot
  | object r =>
    dsimp only
    rw [Exec.run_bind (x := get) (a := m) rfl, Exec.run_bind (x := pure _) rfl]
    cases m.heap.chars? r with
    | none => exact hnot
    | some s =>
      dsimp only
      cases Number.read? (Text.trimBlanks s) with
      | some x => exact ⟨_, rfl, fun y hy => by cases hy; trivial⟩
      | none => exact ⟨_, rfl, fun y hy => by cases hy⟩

theorem numberOf_tame : numberOf.Tame V := by
  refine HostFunction.tame_of_eq ?_
  rintro _ m - (_ | @⟨_, a, _, _, ha, _ | _⟩)
  cases a with
  | any v => exact toNumber_spec ha
  | _ => exact ha.elim

theorem supply_tame {f : Exec Float}
    (hf : ∀ {m : Machine}, m.Sound → ∃ x m', f m = .ok x m' ∧ m.Serves V m.stack.depth m') :
    (supply f).Tame V := by
  intro as m hs hr hfits
  obtain ⟨x, m', hx, hserves⟩ := hf hs
  have hrun : (supply f).run as m = .ok (.ok (.number x)) m' := Exec.run_bind hx
  rw [hrun]
  exact ⟨hserves, fun y hy => by cases hy; trivial⟩

/-- **Every native of the language keeps to values and does not give up.** -/
theorem builtins_tame {b : Builtin} (hb : b ∈ builtins) : b.function.Tame V := by
  revert b
  simp only [builtins, List.forall_mem_cons, List.not_mem_nil, false_imp_iff, implies_true, and_true]
  and_intros
  all_goals
    first
      | exact onNumber_tame _
      | exact onNumbers_tame _
      | exact onText_tame _
      | exact lengthOf_tame
      | exact numberOf_tame
      | exact squareRoot_tame
      | exact onAny_tame fun hr hl => exists_text hr hl
      | exact onAny_tame fun _ hl => Exec.exists_typeName hl
      | exact supply_tame fun hs =>
          ⟨_, _, rfl, Machine.Sound.serves_of_eq { hs with } rfl rfl rfl (Nat.le_refl _)⟩

theorem builtins_arity {b : Builtin} (hb : b ∈ builtins) :
    b.function.signature.arity = .ok b.function.signature.arguments.length := by
  revert b
  simp only [builtins, List.forall_mem_cons, List.not_mem_nil, false_imp_iff, implies_true, and_true]
  and_intros
  all_goals rfl

end Native

end Parlance
