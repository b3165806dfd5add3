/-
  Machines that collect at different times.
-/
import Parlance.Proofs.Parallel.Natives
import Parlance.Proofs.Parallel.Sessions

namespace Parlance

/-- Open variables correspond in their order, and with their slots. -/
def Bond.level : Bond where
  right := .stack
  kin :=
    { vars := fun β u v => u.isOpen = v.isOpen ∧ u.slot = v.slot ∧ u.closed.Alike β v.closed
      mono := fun hle _ _ h => ⟨h.1, h.2.1, h.2.2.mono hle⟩ }
  strict := False
  joins _ β s t := List.Forall₂ β s.opens t.opens

variable {c : Option Nat} {β β' : Pairing} {m1 m2 : Machine} {r s : Ref} {v w : Value}

namespace Machine.Alike

section

variable (hm : m1.Alike .level c β m2)
include hm

theorem relimit (c' : Option Nat) : m1.Alike .level c' β m2 :=
  { hm with joined := hm.joined }

theorem opens_rel : List.Forall₂ β m1.openUpvalues m2.openUpvalues := hm.joined

theorem setUpvalue (hrs : m1.Pairs β m2 r s) {u x y z : Upvalue}
    (hu : m1.heap.object? r = some (.upvalue u))
    (hx : m2.heap.object? s = some (.upvalue x)) (hyz : Bond.level.kin.vars β y z)
    (hly : m1.heap.LiveValue y.closed)
    (hlz : m2.heap.LiveValue z.closed) {us vs : List Ref}
    (hus : (m1.heap.setObject r (.upvalue y)).Opens us)
    (hvs : (m2.heap.setObject s (.upvalue z)).Opens vs) (husvs : List.Forall₂ β us vs) :
    Alike .level c β { m1 with heap := m1.heap.setObject r (.upvalue y), openUpvalues := us }
      { m2 with heap := m2.heap.setObject s (.upvalue z), openUpvalues := vs } :=
  { hm with
    sound₁ := hm.sound₁.setUpvalue hu hly hus
    sound₂ := hm.sound₂.setUpvalue hx hlz hvs
    heap := hm.heap.setObject hrs.paired hrs.left hrs.right (.upvalue hyz)
    joined := husvs }

theorem stack_get? (i : Nat) : Option.Rel (m1.Shares β m2) (m1.stack.get? i) (m2.stack.get? i) := by
  have hrel := forall₂_getElem? hm.values i
  simp only [Slots.values, Bond.level, Slots.stack, Stack.getElem?_toList] at hrel
  generalize h1 : m1.stack.get? i = x at hrel
  generalize h2 : m2.stack.get? i = y at hrel
  cases hrel with
  | none => exact .none
  | some hvw => exact .some ⟨hvw, Exec.live_of_get? hm.sound₁ h1, Exec.live_of_get? hm.sound₂ h2⟩

theorem put (hvw : m1.Shares β m2 v w) (i : Nat) :
    Alike .level c β { m1 with stack := m1.stack.put i v } { m2 with stack := m2.stack.put i w } :=
  { hm with
    sound₁ := hm.sound₁.put i hvw.left
    sound₂ := hm.sound₂.put i hvw.right
    depth := hm.depth
    values := by
      simp only [Slots.values, Bond.level, Slots.stack, Stack.toList_put]
      exact forall₂_set hm.values i hvw.alike
    joined := hm.joined }

theorem opens_slots : List.Forall₂ (fun r s => m1.Pairs β m2 r s ∧ m1.heap.slotAt r = m2.heap.slotAt s)
    m1.openUpvalues m2.openUpvalues := by
  refine forall₂_imp_of_mem hm.opens_rel ?_
  intro r s hr hs hrs
  obtain ⟨hl, u, hu, -⟩ := hm.sound₁.opens.upvalue hr
  obtain ⟨hl', x, hx, -⟩ := hm.sound₂.opens.upvalue hs
  refine ⟨⟨hrs, hl, hl'⟩, ?_⟩
  obtain ⟨o, p, ho, hp, hop⟩ := hm.heap.object hrs hl hl'
  rw [hu] at ho
  rw [hx] at hp
  cases ho
  cases hp
  cases hop with
  | upvalue hkin => rw [Heap.slotAt_eq hu, Heap.slotAt_eq hx, hkin.2.1]

end

end Machine.Alike

namespace Exec

theorem Along.setSlot (hm : m1.Alike .level none β m2) (hvw : m1.Shares β m2 v w) (i : Nat) :
    Along .level β (setSlot i v) (setSlot i w) m1 m2 (Still .level) := by
  unfold Exec.setSlot
  refine .get_bind ?_
  rw [hm.depth]
  split
  · exact .of_ok rfl rfl (fun h => h) (hm.put hvw i)
  · exact .fault hm

theorem Along.closeList {last : Nat} {us vs : List Ref} (husvs : List.Forall₂ β us vs)
    (hm : m1.Alike .level none β m2) (hus : m1.openUpvalues = us) (hvs : m2.openUpvalues = vs) :
    Along .level β (closeList last us) (closeList last vs) m1 m2 fun β' _ _ n1 n2 => β' = β ∧
      n1.Alike .level none β n2 ∧ (n1.stack = m1.stack ∧ n2.stack = m2.stack) ∧
      (n1.frames = m1.frames ∧ n2.frames = m2.frames) ∧ (∀ {x}, m1.heap.Live x → n1.heap.Live x) ∧
      (∀ {x}, m2.heap.Live x → n2.heap.Live x) ∧ n1.Clear last := by
  induction husvs generalizing m1 m2 with
  | nil =>
    refine .pure ⟨rfl, hm, ⟨rfl, rfl⟩, ⟨rfl, rfl⟩, id, id, fun r hr => ?_⟩
    rw [hus] at hr
    cases hr
  | @cons r s us vs hrs htail ih =>
    have hopens1 : m1.heap.Opens (r :: us) := hus ▸ hm.sound₁.opens
    have hopens2 : m2.heap.Opens (s :: vs) := hvs ▸ hm.sound₂.opens
    have hpair : m1.Pairs β m2 r s :=
      ⟨hrs, (hopens1.upvalue List.mem_cons_self).1, (hopens2.upvalue List.mem_cons_self).1⟩
    unfold Exec.closeList
    refine (hm.upvalue hpair).sync_bind hm ?_
    rintro ⟨isOpen, slot, held⟩ ⟨_, _, held'⟩ ⟨⟨rfl, rfl, hheld⟩, hu, hx⟩
    dsimp only
    split
    · refine .get_bind ?_
      refine (Reads.need (hm.stack_get? slot)).sync_bind hm ?_
      intro v w hvw
      refine .bind_ok (x := Exec.setObject _ _) (y := Exec.setObject _ _) rfl rfl ?_
      refine .bind_ok (x := modify _) (y := modify _) rfl rfl ?_
      have hclosed :=
        hm.setUpvalue hpair hu hx (y := ⟨false, slot, v⟩) (z := ⟨false, slot, w⟩)
        ⟨rfl, rfl, hvw.alike⟩ hvw.left hvw.right (hopens1.close rfl) (hopens2.close rfl) htail
      refine (ih hclosed rfl rfl).mono ?_
      rintro β' _ _ n1 n2 - ⟨rfl, hn, hstack, hframes, hl1, hl2, hclear⟩
      exact ⟨rfl, hn, hstack, hframes, fun h => hl1 ((Heap.live_setObject ..).2 h),
        fun h => hl2 ((Heap.live_setObject ..).2 h), hclear⟩
    · rename_i hlast
      have hslot : m1.heap.slotAt r = slot := Heap.slotAt_eq hu
      exact .pure ⟨rfl, hm, ⟨rfl, rfl⟩, ⟨rfl, rfl⟩, id, id, fun y hy =>
        hopens1.lt_of_head (by omega) (hus ▸ hy)⟩

theorem forall₂_split {R : Ref → Ref → Prop} {p q : Ref → Prop} {xs ys xs' ys' : List Ref}
    (h : List.Forall₂ R (xs ++ ys) (xs' ++ ys')) (hR : ∀ {a b}, R a b → (p a ↔ q b))
    (hxs : ∀ a ∈ xs, p a)
    (hys : ∀ a ∈ ys, ¬ p a) (hxs' : ∀ b ∈ xs', q b) (hys' : ∀ b ∈ ys', ¬ q b) :
    List.Forall₂ R xs xs' ∧ List.Forall₂ R ys ys' := by
  induction xs generalizing xs' with
  | nil =>
    cases xs' with
    | nil => exact ⟨.nil, h⟩
    | cons b xs' =>
      cases ys with
      | nil => cases h
      | cons a ys =>
        obtain ⟨hab, -⟩ := List.forall₂_cons.1 h
        exact (hys a List.mem_cons_self ((hR hab).2 (hxs' b List.mem_cons_self))).elim
  | cons a xs ih =>
    cases xs' with
    | nil =>
      cases ys' with
      | nil => cases h
      | cons b ys' =>
        obtain ⟨hab, -⟩ := List.forall₂_cons.1 h
        exact (hys' b List.mem_cons_self ((hR hab).1 (hxs a List.mem_cons_self))).elim
    | cons b xs' =>
      obtain ⟨hab, htail⟩ := List.forall₂_cons.1 h
      obtain ⟨hleft, hright⟩ := ih htail (fun x hx => hxs x (List.mem_cons_of_mem a hx))
        fun x hx => hxs' x (List.mem_cons_of_mem b hx)
      exact ⟨.cons hab hleft, hright⟩

theorem Along.capture (hm : m1.Alike .level none β m2) (slot : Nat) :
    Along .level β (capture slot) (capture slot) m1 m2 fun β' r s n1 n2 => n1.Alike .level none β' n2 ∧
      n1.Pairs β' n2 r s ∧ (n1.stack = m1.stack ∧ n2.stack = m2.stack) ∧
      (n1.frames = m1.frames ∧ n2.frames = m2.frames) ∧ m1.heap.Steady n1.heap := by
  obtain ⟨r, n1, hrun1, hcase1⟩ := capture_cases slot hm.sound₁
  obtain ⟨s, n2, hrun2, hcase2⟩ := capture_cases slot hm.sound₂
  have hslots := hm.opens_slots
  cases hcase1 with
  | known hmem1 hslot1 =>
    obtain ⟨x, hx, hrx, hslot⟩ := forall₂_exists hslots hmem1
    have hslotx := hslot.symm.trans hslot1
    cases hcase2 with
    | known hmem2 hslot2 =>
      have hxs : x = s := hm.sound₂.opens.eq_of_slotAt hx hmem2 (hslotx.trans hslot2.symm)
      exact .of_ok hrun1 hrun2 (fun h => h) ⟨hm, hxs ▸ hrx, ⟨rfl, rfl⟩, ⟨rfl, rfl⟩, .refl _⟩
    | fresh hsplit2 habove2 hothers2 _ =>
      exact (Capture.slotAt_ne hsplit2 habove2 hothers2 hx hslotx).elim
  | @fresh h1 above1 others1 hsplit1 habove1 hothers1 ha1 =>
    cases hcase2 with
    | known hmem2 hslot2 =>
      obtain ⟨x, hx, -, hslot⟩ := forall₂_exists (List.Forall₂.flip hslots) hmem2
      exact (Capture.slotAt_ne hsplit1 habove1 hothers1 hx (hslot.trans hslot2)).elim
    | @fresh h2 above2 others2 hsplit2 habove2 hothers2 ha2 =>
      have hle := @Pairing.le_add β r s
      rw [← hsplit1, ← hsplit2] at hslots
      obtain ⟨habove, hothers⟩ := forall₂_split (p := fun x => slot < m1.heap.slotAt x)
        (q := fun x => slot < m2.heap.slotAt x) hslots (fun hab => by rw [hab.2]) habove1
        (fun x hx => Nat.not_lt.2 (Nat.le_of_lt (hothers1 x hx))) habove2
        fun x hx => Nat.not_lt.2 (Nat.le_of_lt (hothers2 x hx))
      have hopens : List.Forall₂ (β.add r s) (above1 ++ r :: others1) (above2 ++ s :: others2) :=
        List.rel_append (habove.imp fun _ _ h => hle h.1.paired) (.cons (β.add_self r s)
          (hothers.imp fun _ _ h => hle h.1.paired))
      refine .of_ok hrun1 hrun2 hle ⟨?_, ⟨β.add_self r s, ha1.live_new, ha2.live_new⟩,
        ⟨rfl, rfl⟩, ⟨rfl, rfl⟩, ha1.toEvolves.steady⟩
      exact { hm with
        sound₁ := hm.sound₁.evolvesTo ha1.toEvolves
          (Capture.opens hm.sound₁ hsplit1 habove1 hothers1 ha1)
        sound₂ := hm.sound₂.evolvesTo ha2.toEvolves
          (Capture.opens hm.sound₂ hsplit2 habove2 hothers2 ha2)
        heap := hm.heap.allocated ha1 ha2 (.upvalue ⟨rfl, rfl, .nul⟩)
        values := hm.values.imp fun _ _ => .mono hle
        frames := hm.frames.imp fun _ _ => .mono hle
        globals := hm.globals.imp fun _ _ hk hv => ⟨hk.mono hle, hv.mono hle⟩
        joined := hopens }

end Exec

theorem Machine.Alike.abandonAll {us vs : List Ref} (husvs : List.Forall₂ β us vs)
    (hm : m1.Alike .level none β m2) (hus : m1.openUpvalues = us) (hvs : m2.openUpvalues = vs) :
    Machine.Alike .level none β
      { m1 with heap := us.foldl (Machine.abandonUpvalue m1.stack) m1.heap, openUpvalues := [] }
      { m2 with heap := vs.foldl (Machine.abandonUpvalue m2.stack) m2.heap, openUpvalues := [] } := by
  induction husvs generalizing m1 m2 with
  | nil =>
    have hnil1 : m1 = { m1 with openUpvalues := [] } := by rw [← hus]
    have hnil2 : m2 = { m2 with openUpvalues := [] } := by rw [← hvs]
    exact hnil1 ▸ hnil2 ▸ hm
  | @cons r s us vs hrs htail ih =>
    have hopens1 : m1.heap.Opens (r :: us) := hus ▸ hm.sound₁.opens
    have hopens2 : m2.heap.Opens (s :: vs) := hvs ▸ hm.sound₂.opens
    obtain ⟨hl, u, hu, -⟩ := hopens1.upvalue List.mem_cons_self
    obtain ⟨hl', x, hx, -⟩ := hopens2.upvalue List.mem_cons_self
    obtain ⟨hpair, hslot⟩ : m1.Pairs β m2 r s ∧ u.slot = x.slot := by
      refine ⟨⟨hrs, hl, hl'⟩, ?_⟩
      have hslots := hm.opens_slots
      rw [hus, hvs] at hslots
      have heq := (List.forall₂_cons.1 hslots).1.2
      rwa [Heap.slotAt_eq hu, Heap.slotAt_eq hx] at heq
    have hvalue : m1.Shares β m2 ((m1.stack.get? u.slot).getD .nul)
        ((m2.stack.get? x.slot).getD .nul) := by
      have hrel := hm.stack_get? u.slot
      rw [← hslot]
      generalize m1.stack.get? u.slot = o at hrel ⊢
      generalize m2.stack.get? u.slot = o' at hrel ⊢
      cases hrel with
      | none => exact ⟨.nul, trivial, trivial⟩
      | some hvw => exact hvw
    have hclosed :=
      hm.setUpvalue hpair hu hx
      (y := { u with isOpen := false, closed := (m1.stack.get? u.slot).getD .nul })
      (z := { x with isOpen := false, closed := (m2.stack.get? x.slot).getD .nul })
      ⟨rfl, hslot, hvalue.alike⟩ hvalue.left
      hvalue.right (hopens1.close rfl) (hopens2.close rfl) htail
    rw [List.foldl_cons, List.foldl_cons, Machine.abandonUpvalue_eq m1.stack hu,
      Machine.abandonUpvalue_eq m2.stack hx]
    exact ih hclosed rfl rfl

/-- **Two machines that keep their variables alike stay so**, whenever their heaps collect. -/
theorem Bond.level_lawful : Bond.level.Lawful where
  right := Slots.stack_lawful
  evolves hm _ _ hle _ _ := hm.opens_rel.imp fun _ _ h => hle h
  setClosure _ _ _ _ hm _ _ := hm.opens_rel
  cutTo hm _ _ := hm.opens_rel
  push {β m1 m2 v w} hm hvw _ := by
    have hvalues : ∀ {m : Machine} (v : Value), m.Sound → m.heap.LiveValue v →
        Slots.stack.Pushed v m { m with stack := m.stack.push v } := fun v hm hv =>
      ⟨Stack.toList_push hm.depth_le v, rfl, rfl, .refl hm.heap (by simp)⟩
    refine ⟨_, _, rfl, rfl, ?_, hvalues v hm.sound₁ hvw.left, hvalues w hm.sound₂ hvw.right⟩
    exact { hm with
      sound₁ := hm.sound₁.push hvw.left
      sound₂ := hm.sound₂.push hvw.right
      depth := by rw [Stack.depth_push, Stack.depth_push, hm.depth]
      values := by
        simp only [Slots.values, Bond.level, Slots.stack, Stack.toList_push hm.sound₁.depth_le,
          Stack.toList_push hm.sound₂.depth_le]
        exact forall₂_concat hm.values hvw.alike
      joined := hm.opens_rel }
  set hm hvw := Exec.Along.setSlot hm hvw _
  capture {β m1 m2 i} hm _ := by
    refine (Exec.Along.capture hm i).mono ?_
    rintro β' r s n1 n2 - ⟨hn, hrs, hstack, hframes, hsteady⟩
    refine ⟨hn, hrs, ⟨?_, ?_⟩, hframes, by rw [hstack.1], hsteady⟩
    · exact congrArg Stack.toList hstack.1
    · exact congrArg Stack.toList hstack.2
  read {β m1 m2 r s} hm hrs _ := by
    show Exec.Reads (Exec.readUpvalue r) (Exec.readUpvalue s) m1 m2 _
    unfold Exec.readUpvalue
    refine .bind (hm.upvalue hrs) ?_
    rintro ⟨isOpen, slot, held⟩ ⟨_, _, held'⟩ ⟨⟨rfl, rfl, hheld⟩, hu, hx⟩
    dsimp only
    split
    · exact .get_bind (.need (hm.stack_get? slot))
    · exact .pure ⟨hheld, Exec.liveValue_closed hm.sound₁ hrs.left hu,
        Exec.liveValue_closed hm.sound₂ hrs.right hx⟩
  write {β m1 m2 r s v w} hm hrs hvw _ := by
    show Exec.Along .level β (Exec.writeUpvalue r v) (Exec.writeUpvalue s w) m1 m2 _
    unfold Exec.writeUpvalue
    refine (hm.upvalue hrs).sync_bind hm ?_
    rintro ⟨isOpen, slot, held⟩ ⟨_, _, held'⟩ ⟨⟨rfl, rfl, hheld⟩, hu, hx⟩
    dsimp only
    split
    · exact Exec.Along.setSlot hm hvw slot
    · rename_i hclosed
      have hopen : isOpen = false := Bool.not_eq_true _ ▸ hclosed
      subst hopen
      exact .of_ok rfl rfl (fun h => h) (hm.setUpvalue hrs hu hx (y := ⟨false, slot, v⟩)
        (z := ⟨false, slot, w⟩) ⟨rfl, rfl, hvw.alike⟩ hvw.left hvw.right
        (hm.sound₁.setClosed hu rfl hvw.left).opens
        (hm.sound₂.setClosed hx rfl hvw.right).opens hm.opens_rel)
  closeFrom {β m1 m2 last} hm _ := by
    show Exec.Along .level β (Exec.closeFrom last) (Exec.closeFrom last) m1 m2 _
    unfold Exec.closeFrom
    refine .get_bind ((Exec.Along.closeList hm.opens_rel hm rfl rfl).mono ?_)
    rintro β' _ _ n1 n2 - ⟨rfl, hn, hrest⟩
    exact ⟨hn.relimit _, hrest⟩
  abandon _ {β m1 m2} hm := by
    have hdropped := hm.abandonAll hm.opens_rel rfl rfl
    exact { hdropped with
      sound₁ := (hdropped.sound₁.cutTo (Nat.zero_le _)).withFrames (by simp)
      sound₂ := (hdropped.sound₂.cutTo (Nat.zero_le _)).withFrames (by simp)
      depth := rfl
      values := .nil
      frames := .nil
      joined := .nil }

/-! ## Sessions -/

/-- Accepted functions, among natives that the host can be trusted with and that cannot tell apart
machines that differ in their collections only. They may give up. -/
def Vetting.discreet (host : Host) : Vetting := Vetting.verified.trusting host Bond.level.Blind

/-- The natives that are bound are discreet. -/
def Request.Discreet (host : Host) : Request → Prop
  | .native name arity code => (Vetting.discreet host).native ⟨name, arity, some code⟩
  | .source .. | .image .. => True

theorem Native.discreet_builtin {i : Nat} {b : Native.Builtin} (hb : Native.builtins[i]? = some b)
    (name : String) :
    (Request.native name b.function.signature.arguments.length i).Discreet
      Native.builtinLibrary.host := by
  have hmem := List.mem_of_getElem? hb
  exact Vetting.trusts_of_tame (V := .verified) (P := Bond.level.Blind) (Native.host_builtin hb)
    (Native.builtins_tame hmem).routine
    (Native.HostFunction.Blind.routine Bond.level_lawful (Native.builtins_blind hmem) _)

theorem Request.Discreet.takes {host : Host} {q : Request} (hq : q.Discreet host) :
    (Vetting.discreet host).Takes q := by
  cases q with
  | native name arity code => exact hq
  | source file text reported => exact fun _ hp => (compileTokens_spec hp).1.verify
  | image file bytes reported =>
    exact ⟨Proto.admitted_trusting (V := .verified) id host _, fun _ hread =>
      ⟨Image.verify_of_read hread, False.elim⟩⟩

/-- **Collections are not seen.** Machines that differ in when their heaps collect give the same
answers to the same requests, failures and traces included, print and report the same text, and end
with the same globals, of the same types and with the same texts. -/
theorem collections_unseen (host : Host) (turns : Nat) (settings : Settings)
    (collections : HeapSettings) (clock : Nat)
    (seed : UInt64) (requests : List Request) (discreet : ∀ q ∈ requests, q.Discreet host) :
    let s := Machine.session { Machine.new settings with clock, seed } host turns requests
    let t := Machine.session { Machine.new { settings with heap := collections } with clock, seed }
      host turns requests
    s.1 = t.1 ∧ s.2.out = t.2.out ∧ s.2.reports = t.2.reports ∧
      s.2.shownGlobals = t.2.shownGlobals := by
  have hsession :=
    Bond.level_lawful.session_new (Vetting.verified.hosts_trusting host Bond.level.Blind)
    Vetting.Trusts.property False.elim settings collections clock seed (fun _ _ => .nil) turns
    fun q hq => (discreet q hq).takes
  exact hsession

/-- A counter in a closure, and a call of a native. -/
def countingSource : String :=
  "fonction compteur(nom) \x7b var n = nom; fonction suivant() \x7b n = n + nom; retourner n; \x7d " ++
    "retourner suivant; \x7d
var a = compteur(texte(nul)); afficher a() + a();"

/-- A session with a native of the language, a run that ends well, one that fails and is reported,
and bytes that are no image. -/
def countingRequests : List Request :=
  [.native "texte" 1 14, .source "compteur" countingSource false,
    .source "faute" "afficher a() + nul;" true, .image "vide" #[] true]

theorem collections_unseen_counting : (∀ q ∈ countingRequests, q.Discreet Native.builtinLibrary.host) ∧
    (Machine.session (Machine.new { heap := { stress := true } }) Native.builtinLibrary.host 1000
      countingRequests).1 =
      (Machine.session (Machine.new {}) Native.builtinLibrary.host 1000 countingRequests).1 := by
  have hdiscreet : ∀ q ∈ countingRequests, q.Discreet Native.builtinLibrary.host := by
    simp only [countingRequests, List.forall_mem_cons]
    exact ⟨Native.discreet_builtin (i := 14) rfl "texte", trivial, trivial, trivial, by simp⟩
  exact ⟨hdiscreet,
    (collections_unseen _ 1000 { heap := { stress := true } } {} 0 0x2545F4914F6CDD1D
    _ hdiscreet).1⟩

end Parlance
