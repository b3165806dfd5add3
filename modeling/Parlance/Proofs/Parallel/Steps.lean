/-
  One turn of two machines side by side.
-/
import Parlance.Proofs.Parallel.Moves

namespace Parlance

open Machine (Alike)

variable {B : Bond} {β β' : Pairing} {m1 m2 : Machine} {v w : Value}

/-! ## Open variables -/

namespace Machine

variable {m : Machine}

theorem Clear.mono {a b : Nat} (h : m.Clear a) (hle : a ≤ b) : m.Clear b :=
  fun r hr => Nat.lt_of_lt_of_le (h r hr) hle

theorem Clear.evolves {limit : Nat} {h : Heap} {roots : List Ref} (hc : m.Clear limit) (hm : m.Sound)
    (he : m.heap.Evolves roots h) (hlive : ∀ r ∈ m.openUpvalues, h.Live r) :
    Clear limit { m with heap := h } := by
  intro r hr
  have heq : h.slotAt r = m.heap.slotAt r :=
    Heap.slotAt_congr (he.object_eq (hm.opens.upvalue hr).1 (hlive r hr))
  show h.slotAt r < limit
  rw [heq]
  exact hc r hr

theorem Clear.evolves_roots {limit : Nat} {h : Heap} (hc : m.Clear limit) (hm : m.Sound)
    (he : m.heap.Evolves m.roots.refs h) : Clear limit { m with heap := h } :=
  hc.evolves hm he fun _ hr => he.live_of_mem (mem_refs.2 (Or.inr (Or.inr (Or.inl hr))))

theorem Clear.serves {V : Vetting} {m n : Machine} {limit low : Nat} (hc : m.Clear limit)
    (hm : m.Sound) (hs : m.Serves V low n) : n.Clear limit := by
  intro r hr
  have hr' : r ∈ m.openUpvalues := hs.opens_eq ▸ hr
  obtain ⟨hl, u, hu, -⟩ := hm.opens.upvalue hr'
  rw [hs.steady.slotAt_eq hl (hs.sound.opens.upvalue hr).1 hu]
  exact hc r hr'

end Machine

theorem Bond.Clears.mono {m : Machine} {a b : Nat} (h : B.Clears m a) (hle : a ≤ b) :
    B.Clears m b := fun hs => (h hs).mono hle

/-! ## Natives -/

/-- Answers of natives that correspond. -/
inductive Answers (β : Pairing) (h1 h2 : Heap) : Except String Value → Except String Value → Prop
  | error (message : String) : Answers β h1 h2 (.error message) (.error message)
  | ok {v w : Value} : Heap.Share β h1 h2 v w → Answers β h1 h2 (.ok v) (.ok w)

/-- The routine cannot tell machines apart that are alike: with corresponding arguments it gives
corresponding answers, or gives up on both. -/
def Bond.Blind (B : Bond) (arity : Int) (routine : Routine) : Prop :=
  ∀ {name : String} {β : Pairing} {m1 m2 : Machine} {vs ws : List Value}, m1.Alike B none β m2 →
    List.Forall₂ (Value.Alike β) vs ws → (∀ v ∈ vs, v ∈ m1.stack.toList) →
    (∀ w ∈ ws, w ∈ B.right.values m2) → (0 ≤ arity → (vs.length : Int) = arity) →
    Exec.Along B β (routine name vs) (routine name ws) m1 m2 fun β' r s n1 n2 =>
      n1.Alike B none β' n2 ∧ Answers β' n1.heap n2.heap r s

/-- The vetted natives serve the machine on the left, and cannot tell the machines apart. -/
structure Bond.Hosts (B : Bond) (host : Host) (V : Vetting) : Prop where
  blind : ∀ {n routine}, V.native n → n.code.bind (host[·]?) = some routine → B.Blind n.arity routine
  serves : ∀ {n routine argc r} {m m' : Machine}, V.native n →
    n.code.bind (host[·]?) = some routine → m.Sound →
    m.heap.Readable → argc ≤ m.stack.depth → (0 ≤ n.arity → (argc : Int) = n.arity) →
    routine n.name (m.stack.toList.drop (m.stack.depth - argc)) m = .ok r m' →
    m.Serves V (m.stack.depth - argc - 1) m'

/-- The heap has natives in `N` only, and every value has a text. -/
structure Heap.Tended (N : Native → Prop) (h : Heap) : Prop where
  native : ∀ {x n}, h.Live x → h.object? x = some (.native n) → N n
  readable : h.Readable

/-- Two strings are put together; anything else is refused. -/
def Slots.join (S : Slots) : (s t : Option String) → Exec Unit
  | some s, some t => do
    let key ← Exec.intern (s ++ t)
    discard S.pop
    discard S.pop
    S.push (.object key.ref)
  | _, _ => Exec.raise .operandsNotAddable S

namespace Exec

/-- The machines are still alike. -/
abbrev Still (B : Bond) {α γ : Type} : Pairing → α → γ → Machine → Machine → Prop :=
  fun β _ _ n1 n2 => n1.Alike B none β n2

/-- Both go on, or both are finished, and are still alike. -/
abbrev Goes (B : Bond) : Pairing → Progress → Progress → Machine → Machine → Prop :=
  fun β p q n1 n2 => p = q ∧ n1.Alike B none β n2

theorem share_arithmetic {op : Op} {x y : Float} {h1 h2 : Heap} (h : arithmetic op x y = .ok v) :
    Heap.Share β h1 h2 v v := by
  unfold arithmetic at h
  repeat' split at h
  all_goals cases h
  all_goals
    refine ⟨?_, trivial, trivial⟩
    constructor

variable (hB : B.Lawful) {host : Host} {V : Vetting}

/-! ## Calls -/

section Calls

variable (hm : m1.Alike B none β m2)
include hB hm

theorem Along.newClosure {r s : Ref} (hrs : β r s) (hr : m1.heap.Reach m1.roots.refs r)
    (hs : m2.heap.Reach m2.roots.refs s) :
    Along B β (newClosure r) (newClosure s) m1 m2 fun β' x y n1 n2 => n1.Alike B none β' n2 ∧ β' x y ∧
      (∃ F h, m1.heap.function? r = some F ∧ n1 = { m1 with heap := h } ∧
        m1.heap.Allocated m1.roots.refs
        (.closure (some r) (Array.replicate F.upvalueCount.toNat none)) x h) ∧
      ∃ us h, n2 = { m2 with heap := h } ∧
        m2.heap.Allocated m2.roots.refs (.closure (some s) us) y h := by
  have hlr := hm.sound₁.heap.live_of_reach (fun _ hx => hm.sound₁.roots hx) hr
  have hls := hm.sound₂.heap.live_of_reach (fun _ hx => hm.sound₂.roots hx) hs
  unfold Exec.newClosure
  refine (hm.function ⟨hrs, hlr, hls⟩).sync_bind hm ?_
  rintro F G ⟨hFG, hF, -⟩
  rw [← hFG.upvalueCount]
  split
  · have hchildren : ∀ (x : Ref) (n : Nat),
        (Object.closure (some x) (Array.replicate n none)).children = [x] := by
      intro x n
      simp [Object.children]
    have hnone :
      List.Forall₂ (Option.Rel β) (Array.replicate F.upvalueCount.toNat (none : Option Ref)).toList
        (Array.replicate F.upvalueCount.toNat none).toList := by
      rw [Array.toList_replicate]
      exact List.forall₂_same.2 fun o ho => by
        rw [(List.mem_replicate.1 ho).2]
        exact .none
    obtain ⟨x, y, h1, h2, heq1, heq2, ha1, ha2, hn⟩ := hm.allocate hB (.closure (.some hrs) hnone)
      (by simp) (by simp) (by simpa [hchildren] using hr) (by simpa [hchildren] using hs)
    refine .of_ok (allocate_run heq1) (allocate_run heq2) (β.le_add x y)
      ⟨hn, β.add_self x y, ⟨F, h1, Heap.function?_of_object? hF, rfl, ha1⟩, ⟨_, h2, rfl, ha2⟩⟩
  · exact .fault hm

theorem Along.enterCall (hclear : B.Clears m1 m1.stack.depth) {r s : Ref}
    (hrs : m1.Pairs β m2 r s) {f g : Option Ref} (hfg : Option.Rel (m1.Pairs β m2) f g)
    (argc : Nat) :
    Along B β (Exec.enterCall r f argc) (Exec.enterCall s g argc B.right) m1 m2 (Still B) := by
  unfold Exec.enterCall
  refine (Reads.need hfg).sync_bind hm ?_
  intro x y hxy
  refine (hm.function hxy).sync_bind hm ?_
  rintro F G ⟨hFG, hF, hG⟩
  rw [hFG.arity]
  split
  · refine .get_bind ?_
    rw [hm.heap.displayName_eq hFG
      (fun z hz => hm.sound₁.heap.closed hxy.left hF z (Heap.mem_children_name hz))
      fun z hz => hm.sound₂.heap.closed hxy.right hG z (Heap.mem_children_name hz)]
    exact Along.raise_bind hB hm hclear _
  · refine .get_bind ?_
    rw [hm.frames_size, hm.maxFrames]
    split
    · exact Along.raise_bind hB hm hclear _
    · refine .of_ok rfl rfl id ?_
      refine hm.withFrames ?_ ?_ ?_
      · rw [Array.toList_push, Array.toList_push]
        exact forall₂_concat hm.frames ⟨hrs.paired, rfl, by rw [hm.depth]⟩
      · intro z hz
        rcases Array.mem_push.1 hz with hz | rfl
        · exact hm.sound₁.frames hz
        · exact hrs.left
      · intro z hz
        rcases Array.mem_push.1 hz with hz | rfl
        · exact hm.sound₂.frames hz
        · exact hrs.right

theorem Along.callNative (hhost : B.Hosts host V) (hr : m1.heap.Readable) {n : Native}
    (hn : V.native n) (argc : Nat)
    (hclear : B.Clears m1 (m1.stack.depth - argc - 1)) :
    Along B β (Exec.callNative host n argc) (Exec.callNative host n argc B.right) m1 m2 (Still B) := by
  have hclear0 : B.Clears m1 m1.stack.depth := hclear.mono (by omega)
  unfold Exec.callNative
  split
  · exact Along.raise_bind hB hm hclear0 _
  · rename_i harity
    refine (hm.top hB argc).sync_bind hm ?_
    rintro vs ws ⟨⟨hvs, hv, hw⟩, hargc, hlen, rfl⟩
    refine .get_bind ?_
    cases hroutine : n.code.bind (host[·]?) with
    | none => exact .fault hm
    | some routine =>
      have hlen' : 0 ≤ n.arity → (argc : Int) = n.arity := by
        intro hnonneg
        simpa [hnonneg] using harity
      refine .bind_ok (x := need (some routine)) (y := need (some routine)) rfl rfl ?_
      refine (hhost.blind hn hroutine hm hvs hv hw (hlen.symm ▸ hlen')).with_left.bind ?_
      rintro β' r s n1 n2 - ⟨⟨hm', hrs⟩, heq⟩
      have hserves := hhost.serves hn hroutine hm.sound₁ hr hargc hlen' heq
      have hclear' : B.Clears n1 (m1.stack.depth - argc - 1) := fun hs =>
        (hclear hs).serves hm.sound₁ hserves
      cases hrs with
      | error message => exact Along.raise hB hm' (hclear'.mono hserves.low_le) _
      | ok hvw =>
        have hcut := hm'.cutTo hB hserves.low_le (by simp)
        refine .bind_ok (x := cutTo _) (y := cutTo _) rfl rfl ?_
        rw [← hm.depth]
        obtain ⟨k1, k2, hp1, hp2, hk, -⟩ := hB.push hcut hvw hclear'
        exact .of_ok hp1 hp2 id hk

theorem Along.callValue (hhost : B.Hosts host V) (ht : m1.heap.Tended V.native)
    (hvw : m1.Shares β m2 v w) (argc : Nat) (hclear : B.Clears m1 (m1.stack.depth - argc - 1)) :
    Along B β (Exec.callValue host v argc) (Exec.callValue host w argc B.right) m1 m2 (Still B) := by
  have hclear0 : B.Clears m1 m1.stack.depth := hclear.mono (by omega)
  have hraise : Along B β (do Exec.raise (.notCallable (← Exec.typeName v)))
      (do Exec.raise (.notCallable (← Exec.typeName w)) B.right) m1 m2
      (Still B (α := Unit) (γ := Unit)) := by
    refine (hm.typeName hvw).sync_bind hm ?_
    rintro name _ rfl
    exact Along.raise hB hm hclear0 _
  unfold Exec.callValue
  obtain ⟨halike, hl, hr⟩ := hvw
  cases halike with
  | @object r s hrs =>
    refine (hm.object ⟨hrs, hl, hr⟩).sync_bind hm ?_
    rintro o p ⟨hop, ho, hp⟩
    cases hop with
    | closure hfg hus =>
      refine Along.enterCall hB hm hclear0 ⟨hrs, hl, hr⟩ ?_ argc
      cases hfg with
      | none => exact .none
      | some hab => exact .some ⟨hab, hm.sound₁.heap.closed hl ho _ (by simp [Object.children]),
          hm.sound₂.heap.closed hr hp _ (by simp [Object.children])⟩
    | native n => exact Along.callNative hB hm hhost ht.readable (ht.native hl ho) argc hclear
    | text s n => exact hraise
    | function h => exact hraise
    | upvalue h => exact hraise
  | nul => exact hraise
  | bool b => exact hraise
  | number x => exact hraise

end Calls

/-! ## Operations on values -/

section Values

variable (hm : m1.Alike B none β m2)
include hB hm

theorem Along.push_running (hvw : m1.Shares β m2 v w)
    (hclear : B.Clears m1 m1.stack.depth) :
    Along B β (do Slots.stack.push v; pure Progress.running)
    (do B.right.push w; pure Progress.running) m1 m2 (Goes B) := by
  obtain ⟨n1, n2, hp1, hp2, hn, -⟩ := hB.push hm hvw hclear
  exact .bind_ok hp1 hp2 (.pure ⟨rfl, hn⟩)

theorem Along.replaceTwo (hvw : m1.Shares β m2 v w)
    (hclear : B.Clears m1 (m1.stack.depth - 2)) :
    Along B β (do discard Slots.stack.pop; discard Slots.stack.pop; Slots.stack.push v)
      (do discard B.right.pop; discard B.right.pop; B.right.push w) m1 m2 (Still B) := by
  refine Along.discardPop_bind hB hm (by simp) ?_
  intro d hd hm'
  refine Along.discardPop_bind hB hm' (by simp) ?_
  intro d' hd' hm''
  have hdepth : d = d' + 1 := hd'
  have hclear' : B.Clears m1 d' := hclear.mono (by omega)
  obtain ⟨n1, n2, hp1, hp2, hn, -⟩ := hB.push hm'' hvw hclear'
  exact .of_ok hp1 hp2 id hn

theorem Along.performArithmetic (hclear : B.Clears m1 (m1.stack.depth - 2)) (op : Op) :
    Along B β (Exec.performArithmetic op) (Exec.performArithmetic op B.right) m1 m2 (Still B) := by
  have hclear0 : B.Clears m1 m1.stack.depth := hclear.mono (by omega)
  unfold Exec.performArithmetic
  refine (hm.peek hB 0).sync_bind hm ?_
  rintro b _ ⟨hb, -, -⟩
  cases hb with
  | number y =>
    refine (hm.peek hB 1).sync_bind hm ?_
    rintro a _ ⟨ha, -, -⟩
    cases ha with
    | number x =>
      dsimp only
      refine Along.discardPop_bind hB hm (by simp) ?_
      intro d hd hm'
      refine Along.discardPop_bind hB hm' (by simp) ?_
      intro d' hd' hm''
      have hdepth : d = d' + 1 := hd'
      have hclear' : B.Clears m1 d' := hclear.mono (by omega)
      cases hresult : arithmetic op x y with
      | error e => exact Along.raise hB hm'' hclear' e
      | ok v =>
        have hv : m1.Shares β m2 v v := share_arithmetic hresult
        obtain ⟨n1, n2, hp1, hp2, hn, -⟩ := hB.push hm'' hv hclear'
        exact .of_ok hp1 hp2 id hn
    | _ => exact Along.raise hB hm hclear0 _
  | _ => exact Along.raise hB hm hclear0 _

theorem Along.performAdd (hclear : B.Clears m1 (m1.stack.depth - 2)) :
    Along B β Exec.performAdd (Exec.performAdd B.right) m1 m2 (Still B) := by
  have hclear0 : B.Clears m1 m1.stack.depth := hclear.mono (by omega)
  have hchars : ∀ {a a' b b'}, m1.Shares β m2 a a' → m1.Shares β m2 b b' →
      Along B β (charsOf a >>= fun s => charsOf b >>= Slots.stack.join s)
      (charsOf a' >>= fun s => charsOf b' >>= B.right.join s)
        m1 m2 (Still B (α := Unit) (γ := Unit)) := by
    intro a a' b b' ha hb
    refine (hm.charsOf ha).sync_bind hm ?_
    rintro s _ rfl
    refine (hm.charsOf hb).sync_bind hm ?_
    rintro t _ rfl
    cases s with
    | none => exact Along.raise hB hm hclear0 _
    | some s =>
      cases t with
      | none => exact Along.raise hB hm hclear0 _
      | some t =>
        obtain ⟨k, l, h1, h2, heq1, heq2, hi1, hi2, hn⟩ := hm.intern hB (s ++ t)
        refine .bind_ok (intern_run heq1) (intern_run heq2) (.from_le (β.le_add k.ref l.ref) ?_)
        refine Along.replaceTwo hB hn ⟨.object (β.add_self _ _), hi1.live_key, hi2.live_key⟩
          fun hs => ?_
        exact (hclear hs).evolves_roots hm.sound₁ hi1.toEvolves
  unfold Exec.performAdd
  refine (hm.peek hB 0).sync_bind hm ?_
  intro b b' hb
  refine (hm.peek hB 1).sync_bind hm ?_
  intro a a' ha
  have hother := hchars ha hb
  obtain ⟨ha, -, -⟩ := ha
  obtain ⟨hb, -, -⟩ := hb
  cases ha with
  | number x =>
    cases hb with
    | number y => exact Along.replaceTwo hB hm ⟨.number _, trivial, trivial⟩ hclear
    | _ => exact hother
  | _ => cases hb <;> exact hother

theorem Along.performPrint (n : Nat) :
    Along B β (Exec.performPrint n) (Exec.performPrint n B.right) m1 m2 (Still B) := by
  unfold Exec.performPrint
  refine (hm.top hB n).sync_bind hm ?_
  rintro vs ws ⟨⟨hvs, hv, hw⟩, -⟩
  refine (hm.foldlM_text (· ++ ·) hvs (fun v h => Slots.stack_lawful.live hm.sound₁ (hv v h))
    (fun w h => hB.right.live hm.sound₂ (hw w h)) "").sync_bind hm ?_
  rintro line _ rfl
  have hcut := hm.cutTo hB (n := m1.stack.depth - n) (Nat.sub_le _ _) (by simp)
  refine .of_ok rfl rfl id ?_
  dsimp only [Still]
  rw [← hm.depth, ← hm.out]
  exact { hcut with
    sound₁ := { hcut.sound₁ with }
    sound₂ := { hcut.sound₂ with }
    out := rfl }

theorem Along.performSetGlobal (hclear : B.Clears m1 m1.stack.depth) :
    Along B β Exec.performSetGlobal (Exec.performSetGlobal B.right) m1 m2 (Still B) := by
  unfold Exec.performSetGlobal
  refine Along.readName_bind hm ?_
  intro k l ip hm' hkl hk hl
  refine (hm'.peek hB 0).sync_bind hm' ?_
  intro v w hvw
  refine .get_bind ?_
  obtain ⟨hflag, hset⟩ := hm'.setGlobal hkl hk hl hvw
  dsimp only
  rw [hflag]
  split
  · refine .bind_ok (x := set _) (y := set _) rfl rfl ?_
    rw [hkl.text]
    exact Along.raise hB (hset.eraseGlobal hkl hk hl) hclear _
  · exact .of_ok rfl rfl id hset

end Values

/-! ## Closures and returns -/

/-- The captures described by the next `count` pairs of bytes are on the stack. -/
def CapturesInside (m : Machine) (f : Frame) (count : Nat) : Prop :=
  ∃ p ip, m.heap.Runs f.closure p ∧ m.frames.back? = some { f with ip } ∧ ∀ j < count, ∀ b : UInt8,
    p.code[ip + 2 * j]? = some 1 → p.code[ip + 2 * j + 1]? = some b → f.base + b.toNat < m.stack.depth

theorem readByte_spec {m n : Machine} {f : Frame} {p : Proto} {b : UInt8}
    (hr : m.heap.Runs f.closure p) (hback : m.frames.back? = some f) (h : readByte m = .ok b n) :
    p.code[f.ip]? = some b ∧ n.frames.back? = some { f with ip := f.ip + 1 } := by
  obtain ⟨F, r, hF, -, hcode, -⟩ := exists_functionOf hr
  have hframe : Exec.frame m = .ok f m := by
    show need m.frames.back? m = _
    rw [hback]
    rfl
  unfold readByte at h
  rw [run_bind hframe, run_bind hF, hcode] at h
  cases hb : p.code[f.ip]? with
  | none =>
    rw [hb] at h
    cases h
  | some b' =>
    rw [hb] at h
    cases h
    exact ⟨rfl, Machine.back_jumped hback _⟩

theorem CapturesInside.next {m n k : Machine} {f : Frame} {count : Nat}
    (h : CapturesInside m f (count + 1))
    {kind index : UInt8} (hkind : readByte m = .ok kind n) (hindex : readByte n = .ok index k)
    (hn : n.heap = m.heap) :
    (kind = 1 → f.base + index.toNat < m.stack.depth) ∧ ∀ {k' : Machine}, k'.frames = k.frames →
      k'.stack.depth = m.stack.depth → (∀ {p}, m.heap.Runs f.closure p → k'.heap.Runs f.closure p) →
      CapturesInside k' f count := by
  obtain ⟨p, ip, hruns, hback, hall⟩ := h
  obtain ⟨hb, hback'⟩ := readByte_spec (f := { f with ip }) hruns hback hkind
  obtain ⟨hb', hback''⟩ := readByte_spec (f := { f with ip := ip + 1 }) (hn ▸ hruns) hback' hindex
  constructor
  · rintro rfl
    exact hall 0 (Nat.succ_pos _) index hb hb'
  · intro k' hframes hdepth hruns'
    refine ⟨p, ip + 1 + 1, hruns' hruns, hframes ▸ hback'', fun j hj b hone hbyte => ?_⟩
    rw [hdepth]
    have hfirst : ip + 2 * (j + 1) = ip + 1 + 1 + 2 * j := by omega
    exact hall (j + 1) (Nat.succ_lt_succ hj) b (hfirst ▸ hone) (hfirst ▸ hbyte)

section Closures

include hB

theorem Along.captured_bind (hm : m1.Alike B none β m2) {f g : Frame} (hfg : f.Alike β g)
    (hf : m1.Calls f.closure) (hg : m2.Calls g.closure) (kind index : UInt8)
    (hinside : B.strict → kind = 1 → f.base + index.toNat < m1.stack.depth)
    {k k' : Option Ref → Exec Unit}
    (hk : ∀ {β' : Pairing} {o o' n1 n2}, (∀ {a b}, β a b → β' a b) → n1.Alike B none β' n2 →
      Option.Rel (n1.Pairs β' n2) o o' →
      n1.stack.toList = m1.stack.toList ∧ B.right.values n2 = B.right.values m2 →
      n1.frames = m1.frames ∧ n2.frames = m2.frames → n1.stack.depth = m1.stack.depth →
        m1.heap.Steady n1.heap →
      Along B β' (k o) (k' o') n1 n2 (Still B)) :
    Along B β (if kind == 1 then do
        let r ← Slots.stack.capture (f.base + index.toNat)
        let captured ← pure (some r)
        k captured
      else do
        let captured ← upvalueOf f.closure index.toNat
        k captured)
      (if kind == 1 then do
        let r ← B.right.capture (g.base + index.toNat)
        let captured ← pure (some r)
        k' captured
      else do
        let captured ← upvalueOf g.closure index.toNat
        k' captured) m1 m2 (Still B) := by
  rw [← hfg.base]
  split
  · rename_i hkind
    refine (hB.capture hm fun hs => hinside hs (beq_iff_eq.1 hkind)).bind ?_
    rintro β' r s n1 n2 hle ⟨hn, hrs, hvalues, hframes, hdepth, hsteady⟩
    exact .bind_ok (x := pure _) (y := pure _) rfl rfl
      (hk hle hn (.some hrs) hvalues hframes hdepth hsteady)
  · refine (hm.upvalueOf ⟨hfg.closure, hf.live hm.sound₁, hg.live hm.sound₂⟩ index.toNat).sync_bind
      hm ?_
    intro o o' ho
    exact hk id hm ho ⟨rfl, rfl⟩ ⟨rfl, rfl⟩ rfl (.refl _)

theorem Along.fillUpvalues (hm : m1.Alike B none β m2) {x y : Ref} (hxy : β x y)
    (hx : .object x ∈ m1.stack.toList)
    (hy : .object y ∈ B.right.values m2) {f g : Frame} (hfg : f.Alike β g) (hf : m1.Calls f.closure)
    (hg : m2.Calls g.closure) (count i : Nat) (hinside : B.strict → CapturesInside m1 f count) :
    Along B β (Exec.fillUpvalues x f count i) (Exec.fillUpvalues y g count i B.right) m1 m2
    (Still B) := by
  induction count generalizing β m1 m2 i with
  | zero => exact .pure hm
  | succ count ih =>
    unfold Exec.fillUpvalues
    refine Along.readByte_bind hm ?_
    intro kind ip hm' hkind
    refine Along.readByte_bind hm' ?_
    intro index ip' hm'' hindex
    have hf' := (Machine.calls_jumped ip').2 ((Machine.calls_jumped ip).2 hf)
    have hg' := (Machine.calls_jumped ip').2 ((Machine.calls_jumped ip).2 hg)
    refine Along.captured_bind hB hm'' hfg hf' hg' kind index
      (fun hs => ((hinside hs).next hkind hindex rfl).1) ?_
    intro β' o o' n1 n2 hle hn ho hvalues hframes hdepth hsteady
    have hx' : .object x ∈ n1.stack.toList := hvalues.1 ▸ hx
    have hy' : .object y ∈ B.right.values n2 := hvalues.2 ▸ hy
    have hpair : n1.Pairs β' n2 x y :=
      ⟨hle hxy, Slots.stack_lawful.live hn.sound₁ hx', hB.right.live hn.sound₂ hy'⟩
    refine (hn.object hpair).sync_bind hn ?_
    rintro p q ⟨hpq, hp, hq⟩
    cases hpq with
    | @closure F G us vs hFG hus =>
      refine .bind_ok (x := setObject _ _) (y := setObject _ _) rfl rfl ?_
      have hset := hn.setClosure hB hpair hp hq ho i
      have hcalls1 : n1.Calls f.closure := by
        obtain ⟨k, hk, heq⟩ := hf'
        exact ⟨k, hframes.1 ▸ hk, heq⟩
      have hcalls2 : n2.Calls g.closure := by
        obtain ⟨k, hk, heq⟩ := hg'
        exact ⟨k, hframes.2 ▸ hk, heq⟩
      refine ih hset (hle hxy) ?_ ?_ (hfg.mono hle) hcalls1 hcalls2 (i + 1) fun hs => ?_
      · simpa only [Slots.values, Slots.stack_lawful.setClosure hp] using hx'
      · simpa only [Slots.values, hB.right.setClosure hq] using hy'
      · refine ((hinside hs).next hkind hindex rfl).2 hframes.1 hdepth fun hruns => ?_
        have hlive := hcalls1.live hn.sound₁
        exact (hruns.steady hsteady hm.sound₁.heap hn.sound₁.heap (hf.live hm.sound₁) hlive).steady
          (Heap.steady_setObject hp ⟨_, rfl, by simp⟩) hn.sound₁.heap hset.sound₁.heap hlive
          ((Heap.live_setObject ..).2 hlive)
    | _ => exact .fault hn

theorem Along.performClosure (hm : m1.Alike B none β m2) (hclear : B.Clears m1 m1.stack.depth)
    (hinside : B.strict → ∀ {v n r F f}, readConstant m1 = .ok v n → v = .object r →
      m1.heap.function? r = some F →
      n.frames.back? = some f → ∀ {k : Machine}, k.frames = n.frames →
        k.stack.depth = m1.stack.depth + 1 →
        (∀ {p}, m1.heap.Runs f.closure p → k.heap.Runs f.closure p) →
          CapturesInside k f F.upvalueCount.toNat) :
    Along B β Exec.performClosure (Exec.performClosure B.right) m1 m2 (Still B) := by
  unfold Exec.performClosure
  refine Along.readConstant_bind hm ?_
  intro v w ip hm' hvw hv hw hconstant
  obtain ⟨halike, hl, hr⟩ := hvw
  cases halike with
  | @object r s hrs =>
    refine .bind_ok (x := pure r) (y := pure s) rfl rfl ?_
    refine (Along.newClosure hB hm' hrs (by rw [Machine.refs_jumped]; exact hv r rfl)
      (by rw [Machine.refs_jumped]; exact hw s rfl)).bind ?_
    rintro β' x y n1 n2 hle ⟨hn, hxy, ⟨F, h1, hF, rfl, ha1⟩, ⟨vs, h2, rfl, ha2⟩⟩
    obtain ⟨k1, k2, hp1, hp2, hk, hpushed1, hpushed2⟩ :=
      hB.push hn ⟨.object hxy, ha1.live_new, ha2.live_new⟩ fun hs =>
      (hclear hs).evolves_roots (m := m1.jumped ip) hm'.sound₁ ha1.toEvolves
    refine .bind_ok hp1 hp2 ?_
    have hx : .object x ∈ k1.stack.toList := hpushed1.mem
    have hy : .object y ∈ B.right.values k2 := hpushed2.mem
    have hlx : k1.heap.Live x := Slots.stack_lawful.live hk.sound₁ hx
    refine hk.frame.sync_bind hk ?_
    rintro f g ⟨hfg, hf, hg⟩
    refine (hk.object ⟨hxy, hlx, hB.right.live hk.sound₂ hy⟩).sync_bind hk ?_
    rintro o p ⟨hop, ho, -⟩
    have hox : k1.heap.object? x =
      some (.closure (some r) (Array.replicate F.upvalueCount.toNat none)) :=
      (hpushed1.evolves.object_eq ha1.live_new hlx).trans ha1.object_new
    rw [hox] at ho
    cases ho
    cases hop with
    | @closure _ G us vs hFG hus =>
      have hsize : vs.size = F.upvalueCount.toNat := by simpa using hus.length_eq.symm
      simp only [Array.size_replicate, hsize]
      refine Along.fillUpvalues hB hk hxy hx hy hfg (Machine.calls_of_back hf)
        (Machine.calls_of_back hg) _ _ fun hs => ?_
      have hback : (m1.jumped ip).frames.back? = some f := hpushed1.frames_eq ▸ hf
      refine hinside hs hconstant rfl hF hback hpushed1.frames_eq ?_ fun hruns => ?_
      · have hlength := Slots.stack_lawful.length hk.sound₁
        rw [hpushed1.values_eq, List.length_append, Slots.stack_lawful.length hn.sound₁] at hlength
        exact hlength.symm
      · have hcalls := Machine.calls_of_back hback
        have hlf : m1.heap.Live f.closure := hcalls.live hm'.sound₁
        have hlf' : h1.Live f.closure := ha1.live_of_mem hcalls.root
        exact (hruns.steady ha1.steady hm.sound₁.heap ha1.sound hlf hlf').steady
          hpushed1.evolves.steady ha1.sound
          hk.sound₁.heap hlf' ((Machine.calls_of_back hf).live hk.sound₁)
  | _ => exact .fault hm'

omit hB in
theorem mem_of_mem_pop {f : Frame} {fs : Array Frame} (h : f ∈ fs.pop) : f ∈ fs := by
  rw [← Array.mem_toList_iff, Array.toList_pop] at h
  exact Array.mem_toList_iff.1 ((List.dropLast_sublist _).subset h)

theorem Along.performReturn (hm : m1.Alike B none β m2) (hclear : B.Clears m1 (m1.stack.depth - 1))
    (hbase : ∀ f, m1.frames.back? = some f → f.base < m1.stack.depth) :
    Along B β Exec.performReturn (Exec.performReturn B.right) m1 m2 (Goes B) := by
  unfold Exec.performReturn
  refine Along.pop_bind hB hm (by simp) ?_
  intro v w d hd hvw hm'
  refine hm'.frame.sync_bind hm' ?_
  rintro f g ⟨hfg, hf, -⟩
  have hclear' : B.Clears m1 d := hclear.mono (by omega)
  rw [← hfg.base]
  refine (hB.closeFrom hm' hclear').bind ?_
  rintro β' _ _ n1 n2 hle ⟨hn, hstack, hframes, hlive1, hlive2, hopen⟩
  have hd' : n1.stack.depth = d := by rw [hstack.1]; rfl
  have hbase' : f.base ≤ n1.stack.depth := by
    have : f.base < m1.stack.depth := hbase f hf
    omega
  have hpop : Machine.Alike B (some f.base) β' { n1 with frames := n1.frames.pop }
      { n2 with frames := n2.frames.pop } := by
    refine hn.withFrames ?_ ?_ ?_
    · rw [Array.toList_pop, Array.toList_pop]
      exact forall₂_dropLast hn.frames
    · exact fun k hk => hn.sound₁.frames (mem_of_mem_pop hk)
    · exact fun k hk => hn.sound₂.frames (mem_of_mem_pop hk)
  refine .bind_ok (x := modify _) (y := modify _) rfl rfl ?_
  refine .get_bind ?_
  have hempty : n1.frames.pop.isEmpty = n2.frames.pop.isEmpty := by
    simp only [Array.isEmpty, Array.size_pop, hn.frames_size]
  simp only [hempty]
  split
  · refine .bind_ok (x := cutTo _) (y := cutTo _) rfl rfl (.pure ⟨rfl, ?_⟩)
    exact hpop.cutTo hB (Nat.zero_le _) fun _ _ => Nat.zero_le _
  · refine .bind_ok (x := cutTo _) (y := cutTo _) rfl rfl ?_
    have hcut :=
      hpop.cutTo hB (n := f.base) hbase' fun last hlast =>
      Nat.le_of_eq (Option.mem_some_iff.1 hlast)
    exact Along.push_running hB hcut (hvw.steady hle hlive1 hlive2) fun _ => hopen

end Closures

/-! ## Instructions -/

/-- What an instruction relies on that has been read on the left: the values that it takes off are
not captured, what it captures is on the stack, and a call that returns has its window there. -/
structure Primed (strict : Prop) (op : Op) (m : Machine) : Prop where
  clear : strict → m.Clear m.stack.depth
  taken : strict → op ≠ .closeUpvalue → op ≠ .call → m.Clear (m.stack.depth - (stackEffect op 0).1)
  call : strict → op = .call → ∀ {b n}, readByte m = .ok b n → m.Clear (m.stack.depth - b.toNat - 1)
  closure : strict → op = .closure → ∀ {v n r F f}, readConstant m = .ok v n → v = .object r →
    m.heap.function? r = some F → n.frames.back? = some f → ∀ {k : Machine}, k.frames = n.frames →
      k.stack.depth = m.stack.depth + 1 → (∀ {p}, m.heap.Runs f.closure p → k.heap.Runs f.closure p) →
        CapturesInside k f F.upvalueCount.toNat
  base : op = .return → ∀ f, m.frames.back? = some f → f.base < m.stack.depth

section Instructions

variable {op : Op}

/-- The instruction `op` leads machines that are alike to such machines. -/
abbrev Performs (B : Bond) (β : Pairing) (host : Host) (op : Op) (m1 m2 : Machine) : Prop :=
  Along B β (Exec.perform host op) (Exec.perform host op B.right) m1 m2 (Goes B)

theorem Along.running {x x' : Exec Unit} (h : Along B β x x' m1 m2 (Still B)) :
    Along B β (do x; pure Progress.running) (do x'; pure Progress.running) m1 m2 (Goes B) :=
  h.bind fun _ hn => .pure ⟨rfl, hn⟩

variable (hm : m1.Alike B none β m2)
include hm

theorem Along.jump : Performs B β host .jump m1 m2 := by
  refine Along.readShort_bind hm ?_
  intro n ip hm'
  refine hm'.frame.sync_bind hm' ?_
  rintro f g ⟨hfg, -, -⟩
  rw [← hfg.ip]
  exact .bind_ok (x := jumpTo _) (y := jumpTo _) rfl rfl (.pure ⟨rfl, hm'.jumped _⟩)

theorem Along.loop : Performs B β host .loop m1 m2 := by
  refine Along.readShort_bind hm ?_
  intro n ip hm'
  refine hm'.frame.sync_bind hm' ?_
  rintro f g ⟨hfg, -, -⟩
  dsimp only
  rw [← hfg.ip]
  split
  · exact .bind_ok (x := jumpTo _) (y := jumpTo _) rfl rfl (.pure ⟨rfl, hm'.jumped _⟩)
  · exact .fault hm'

theorem Along.variable_bind {α : Type} {Q : Pairing → α → α → Machine → Machine → Prop}
    {k k' : Option Ref → Exec α} (hk : ∀ {o o' ip}, (m1.jumped ip).Alike B none β (m2.jumped ip) →
      Option.Rel (m1.Pairs β m2) o o' → Along B β (k o) (k' o') (m1.jumped ip) (m2.jumped ip) Q) :
    Along B β (do let slot ← Exec.readByte; k (← Exec.upvalueOf (← Exec.frame).closure slot.toNat))
      (do let slot ← Exec.readByte; k' (← Exec.upvalueOf (← Exec.frame).closure slot.toNat))
        m1 m2 Q := by
  refine Along.readByte_bind hm ?_
  intro b ip hm' _
  refine hm'.frame.sync_bind hm' ?_
  rintro f g ⟨hfg, hf, hg⟩
  refine (hm'.upvalueOf ⟨hfg.closure, (Machine.calls_of_back hf).live hm'.sound₁,
    (Machine.calls_of_back hg).live hm'.sound₂⟩ b.toNat).sync_bind hm' ?_
  intro o o' ho
  exact hk hm' ho

include hB

theorem Along.getLocal (hclear : B.Clears m1 m1.stack.depth) : Performs B β host .getLocal m1 m2 := by
  refine Along.readByte_bind hm ?_
  intro b ip hm' _
  refine hm'.frame.sync_bind hm' ?_
  rintro f g ⟨hfg, -, -⟩
  rw [← hfg.base]
  refine (hm'.slot hB _).sync_bind hm' ?_
  intro v w hvw
  exact Along.push_running hB hm' hvw hclear

theorem Along.setLocal : Performs B β host .setLocal m1 m2 := by
  refine Along.readByte_bind hm ?_
  intro b ip hm' _
  refine hm'.frame.sync_bind hm' ?_
  rintro f g ⟨hfg, -, -⟩
  rw [← hfg.base]
  refine (hm'.peek hB 0).sync_bind hm' ?_
  intro v w hvw
  exact Along.running (hB.set hm' hvw)

theorem Along.getGlobal (hclear : B.Clears m1 m1.stack.depth) :
    Performs B β host .getGlobal m1 m2 := by
  refine Along.readName_bind hm ?_
  intro k l ip hm' hkl hk hl
  refine .get_bind ?_
  have hrel := hm'.global hkl hk hl
  generalize (m1.jumped ip).globals.get? k = x at hrel
  generalize (m2.jumped ip).globals.get? l = y at hrel
  cases hrel with
  | some hvw => exact Along.push_running hB hm' hvw hclear
  | none =>
    rw [hkl.text]
    exact Along.raise_bind hB hm' hclear _

theorem Along.defineGlobal : Performs B β host .defineGlobal m1 m2 := by
  refine Along.readName_bind hm ?_
  intro k l ip hm' hkl hk hl
  refine (hm'.peek hB 0).sync_bind hm' ?_
  intro v w hvw
  obtain ⟨-, hset⟩ := hm'.setGlobal hkl hk hl hvw
  refine .bind_ok (x := modify _) (y := modify _) rfl rfl ?_
  exact Along.discardPop_bind hB hset (by simp) fun _ hn => .pure ⟨rfl, hn⟩

theorem Along.getUpvalue (hclear : B.Clears m1 m1.stack.depth) :
    Performs B β host .getUpvalue m1 m2 := by
  refine Along.variable_bind hm ?_
  intro o o' ip hm' ho
  refine (Reads.need ho).sync_bind hm' ?_
  intro r s hrs
  refine (hB.read hm' hrs hclear).sync_bind hm' ?_
  intro v w hvw
  exact Along.push_running hB hm' hvw hclear

theorem Along.setUpvalue (hclear : B.Clears m1 m1.stack.depth) :
    Performs B β host .setUpvalue m1 m2 := by
  refine Along.variable_bind hm ?_
  intro o o' ip hm' ho
  refine (hm'.peek hB 0).sync_bind hm' ?_
  intro v w hvw
  refine (Reads.need ho).sync_bind hm' ?_
  intro r s hrs
  exact Along.running (hB.write hm' hrs hvw hclear)

theorem Along.equality (hclear : B.Clears m1 (m1.stack.depth - 2)) (answer : Bool → Bool) :
    Along B β
      (do
        let b ← Slots.stack.pop
        let a ← Slots.stack.pop
        Slots.stack.push (.bool (answer (a.same b)))
        pure Progress.running)
      (do
        let b ← B.right.pop
        let a ← B.right.pop
        B.right.push (.bool (answer (a.same b)))
        pure Progress.running)
      m1 m2 (Goes B) := by
  refine Along.pop_bind hB hm (by simp) ?_
  intro b b' d hd hb hm'
  refine Along.pop_bind hB hm' (by simp) ?_
  intro a a' d' hd' ha hm''
  have hdepth : d = d' + 1 := hd'
  have hclear' : B.Clears m1 d' := hclear.mono (by omega)
  rw [hm.heap.same_eq ha.alike hb.alike ha.left ha.right hb.left hb.right]
  exact Along.push_running hB hm'' ⟨.bool _, trivial, trivial⟩ hclear'

theorem Along.not (hclear : B.Clears m1 (m1.stack.depth - 1)) : Performs B β host .not m1 m2 := by
  refine Along.pop_bind hB hm (by simp) ?_
  intro v w d hd hvw hm'
  have hclear' : B.Clears m1 d := hclear.mono (by omega)
  rw [hvw.alike.isFalsey_eq]
  exact Along.push_running hB hm' ⟨.bool _, trivial, trivial⟩ hclear'

theorem Along.negate (hclear : B.Clears m1 (m1.stack.depth - 1)) :
    Performs B β host .negate m1 m2 := by
  refine (hm.peek hB 0).sync_bind hm ?_
  rintro v _ ⟨hvw, -, -⟩
  cases hvw with
  | number x =>
    refine Along.discardPop_bind hB hm (by simp) ?_
    intro d hd hm'
    have hclear' : B.Clears m1 d := hclear.mono (by omega)
    exact Along.push_running hB hm' ⟨.number _, trivial, trivial⟩ hclear'
  | _ => exact Along.raise_bind hB hm (hclear.mono (by omega)) _

theorem Along.jumpIfFalse : Performs B β host .jumpIfFalse m1 m2 := by
  refine Along.readShort_bind hm ?_
  intro n ip hm'
  refine (hm'.peek hB 0).sync_bind hm' ?_
  intro v w hvw
  rw [hvw.alike.isFalsey_eq]
  split
  · refine hm'.frame.sync_bind hm' ?_
    rintro f g ⟨hfg, -, -⟩
    rw [← hfg.ip]
    exact .bind_ok (x := jumpTo _) (y := jumpTo _) rfl rfl (.pure ⟨rfl, hm'.jumped _⟩)
  · exact .pure ⟨rfl, hm'⟩

theorem Along.closeUpvalue (hclear : B.Clears m1 m1.stack.depth) :
    Performs B β host .closeUpvalue m1 m2 := by
  refine .get_bind ?_
  rw [← hm.depth]
  refine (hB.closeFrom hm hclear).bind ?_
  rintro β' _ _ n1 n2 hle ⟨hn, hstack, -⟩
  refine Along.discardPop_bind hB hn ?_ fun _ hn' => .pure ⟨rfl, hn'⟩
  intro last hlast
  rw [← Option.mem_some_iff.1 hlast, hstack.1]
  omega

/-- **An instruction keeps the machines alike.** -/
theorem Along.perform (hhost : B.Hosts host V) (ht : m1.heap.Tended V.native)
    (hp : Primed B.strict op m1) : Performs B β host op m1 m2 := by
  have hclear := hp.clear
  cases op with
  | constant =>
    exact Along.readConstant_bind hm fun hm' hvw _ _ _ => Along.push_running hB hm' hvw hclear
  | pushNul => exact Along.push_running hB hm ⟨.nul, trivial, trivial⟩ hclear
  | pushTrue => exact Along.push_running hB hm ⟨.bool true, trivial, trivial⟩ hclear
  | pushFalse => exact Along.push_running hB hm ⟨.bool false, trivial, trivial⟩ hclear
  | pop => exact Along.discardPop_bind hB hm (by simp) fun _ hm' => .pure ⟨rfl, hm'⟩
  | getLocal => exact Along.getLocal hB hm hclear
  | setLocal => exact Along.setLocal hB hm
  | getGlobal => exact Along.getGlobal hB hm hclear
  | defineGlobal => exact Along.defineGlobal hB hm
  | setGlobal => exact Along.running (Along.performSetGlobal hB hm hclear)
  | getUpvalue => exact Along.getUpvalue hB hm hclear
  | setUpvalue => exact Along.setUpvalue hB hm hclear
  | equal => exact Along.equality hB hm (fun hs => hp.taken hs nofun nofun) id
  | notEqual => exact Along.equality hB hm (fun hs => hp.taken hs nofun nofun) (!·)
  | add => exact Along.running (Along.performAdd hB hm fun hs => hp.taken hs nofun nofun)
  | not => exact Along.not hB hm fun hs => hp.taken hs nofun nofun
  | negate => exact Along.negate hB hm fun hs => hp.taken hs nofun nofun
  | print => exact Along.readByte_bind hm fun hm' _ => Along.running (Along.performPrint hB hm' _)
  | jump => exact Along.jump hm
  | jumpIfFalse => exact Along.jumpIfFalse hB hm
  | loop => exact Along.loop hm
  | call =>
    refine Along.readByte_bind hm ?_
    intro b ip hm' hb
    refine (hm'.peek hB b.toNat).sync_bind hm' ?_
    intro v w hvw
    exact Along.running (Along.callValue hB hm' hhost ht hvw _ fun hs => hp.call hs rfl hb)
  | closure => exact Along.running (Along.performClosure hB hm hclear fun hs => hp.closure hs rfl)
  | closeUpvalue => exact Along.closeUpvalue hB hm hclear
  | «return» => exact Along.performReturn hB hm (fun hs => hp.taken hs nofun nofun) (hp.base rfl)
  | _ => exact Along.running (Along.performArithmetic hB hm (fun hs => hp.taken hs nofun nofun) _)

end Instructions

end Exec

end Parlance
