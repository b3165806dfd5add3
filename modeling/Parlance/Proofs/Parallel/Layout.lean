/-
  Functions laid out on two heaps.

  * `Heap.Abreast`, `layouts_abreast`: what is laid out on two heaps corresponds.
  * `Machine.Alike.compile`, `Machine.Alike.load`: so do a script that is compiled and an image that
    is loaded.
-/
import Parlance.Proofs.Parallel.Moves

namespace Parlance

variable {K : Kinship} {F : Object → Prop} {β₀ β β' β'' : Pairing}

/-- The pairing grows from the heap `h` on: new pairs are of new objects or of strings. -/
structure Pairing.Grows (β : Pairing) (h : Heap) (β' : Pairing) : Prop where
  le : ∀ {a b}, β a b → β' a b
  fresh : ∀ {a b}, β' a b →
    β a b ∨ h.cells.size ≤ a.serial ∨ h.Live a ∧ ∃ s n, h.object? a = some (.text s n)

namespace Pairing.Grows

variable {h h' : Heap} {R : List Ref} {a : Ref}

theorem refl (β : Pairing) (h : Heap) : β.Grows h β := ⟨fun hab => hab, Or.inl⟩

theorem trans (hg : β.Grows h β') (he : h.Evolves R h') (hg' : β'.Grows h' β'') : β.Grows h β'' where
  le hab := hg'.le (hg.le hab)
  fresh {a b} hab := by
    rcases hg'.fresh hab with hab | hge | ⟨hl, s, n, ho⟩
    · exact hg.fresh hab
    · exact Or.inr (Or.inl (Nat.le_trans he.size_le hge))
    · by_cases hlt : a.serial < h.cells.size
      · obtain ⟨hl', heq⟩ := he.old hl hlt
        exact Or.inr (Or.inr ⟨hl', s, n, heq ▸ ho⟩)
      · exact Or.inr (Or.inl (Nat.not_lt.1 hlt))

theorem allocated {o : Object} (ha : h.Allocated R o a h') (b : Ref) : β.Grows h (β.add a b) where
  le := β.le_add a b
  fresh := by
    rintro x y (hxy | ⟨rfl, rfl⟩)
    · exact Or.inl hxy
    · exact Or.inr (Or.inl ha.fresh)

theorem internedAs {s : String} {k : Symbol} (hi : h.InternedAs R s k h') (b : Ref) :
    β.Grows h (β.add k.ref b) where
  le := β.le_add k.ref b
  fresh := by
    rintro x y (hxy | ⟨rfl, rfl⟩)
    · exact Or.inl hxy
    · by_cases hlt : k.ref.serial < h.cells.size
      · obtain ⟨hl, heq⟩ := hi.old hi.live_key hlt
        exact Or.inr (Or.inr ⟨hl, _, _, heq ▸ hi.object_key⟩)
      · exact Or.inr (Or.inl (Nat.not_lt.1 hlt))

theorem fixed (hg : β.Grows h β') (he : h.Evolves R h') (hf : Heap.Adds F h h')
    (hF : ∀ u, ¬ F (.upvalue u)) {a b : Ref}
    (hab : β' a b) (hl : h'.Live a) : β a b ∨ ∀ u, h'.object? a ≠ some (.upvalue u) := by
  rcases hg.fresh hab with hab | hge | ⟨hl', s, n, ho⟩
  · exact Or.inl hab
  · exact Or.inr fun u hu => hF u (hf hl hge hu)
  · refine Or.inr fun u hu => ?_
    rw [(he.old hl hl'.lt).2, ho] at hu
    cases hu

end Pairing.Grows

theorem Value.Alike.of_plain {v : Value} (hv : ∀ x, v ≠ .object x) : v.Alike β v := by
  cases v with
  | object x => exact absurd rfl (hv x)
  | _ => constructor

namespace Heap

variable {g h : Bool → Heap} {R : Bool → List Ref} {begun : List (Stub Bool)}
  {hand : Option (Hand Bool)}

/-- Two heaps on which the same is being laid out. -/
structure Abreast (K : Kinship) (F : Object → Prop) (β₀ : Pairing) (g : Bool → Heap)
    (R : Bool → List Ref)
    (begun : List (Stub Bool)) (hand : Option (Hand Bool)) (β : Pairing) (h : Bool → Heap) : Prop where
  holding : ∀ i, Holding F (g i) (R i) i begun hand (h i)
  grows : β₀.Grows (g true) β
  alike : (h true).Alike K β (h false)
  paired : ∀ e ∈ begun, β (e.ref true) (e.ref false)
  shared : ∀ x ∈ hand, (x.value true).Alike β (x.value false)

theorem Abreast.names (ht : Abreast K F β₀ g R begun hand β h) {name : Option String}
    {refs : Bool → Option Ref}
    (hname : Hand.Names hand name refs) : Option.Rel β (refs true) (refs false) := by
  cases hand <;> cases name <;> try exact hname.elim
  · rw [hname true, hname false]
    exact .none
  · rename_i x s
    obtain ⟨a, ha, hrefs⟩ := hname.2 true
    obtain ⟨b, hb, hrefs'⟩ := hname.2 false
    have hab := ht.shared x rfl
    rw [ha, hb] at hab
    rw [hrefs, hrefs']
    cases hab with
    | object hab => exact .some hab

theorem Abreast.modify {r : Bool → Ref} {p p' : Proto}
    (ht : Abreast K F β₀ g R (⟨r, p⟩ :: begun) hand β h) {c : Bool → Function → Function}
    (hold : ∀ i, Holding F (g i) (R i) i (⟨r, p'⟩ :: begun) none ((h i).modifyFunction (r i) (c i)))
    (hc : ∀ {f f'}, f.Alike β f' → (c true f).Alike β (c false f')) :
    ∃ β', Abreast K F β₀ g R (⟨r, p'⟩ :: begun) none β' fun i => (h i).modifyFunction (r i) (c i) := by
  have hpaired := ht.paired _ List.mem_cons_self
  have hfunction : ∀ i, (h i).Live (r i) ∧ ∃ f, (h i).object? (r i) = some (.function f) := fun i => by
    obtain ⟨-, -, -, -, hlive, hlaid⟩ := (ht.holding i).laying
    obtain ⟨f, hf, -⟩ := laidOut_iff.1 hlaid
    exact ⟨hlive, f, hf⟩
  obtain ⟨hl, f, hf⟩ := hfunction true
  obtain ⟨hr, f', hf'⟩ := hfunction false
  refine ⟨β, hold, ht.grows, ?_,
    List.forall_mem_cons.2 ⟨hpaired, (List.forall_mem_cons.1 ht.paired).2⟩, by simp⟩
  obtain ⟨o, o', ho, ho', halike⟩ := ht.alike.object hpaired hl hr
  cases hf.symm.trans ho
  cases hf'.symm.trans ho'
  cases halike with
  | function hff' =>
    show Alike K β ((h true).modifyFunction _ _) ((h false).modifyFunction _ _)
    rw [modifyFunction_eq hf, modifyFunction_eq hf']
    exact ht.alike.setObject hpaired hl hr (.function (hc hff'))

theorem Abreast.allocated (ht : Abreast K F β₀ g R begun none β h) {roots : Bool → Roots}
    (hroots : ∀ i, Covers (R i) (roots i) (begun.map (·.ref i))) {o : Object}
    (hnot : ∀ s x, o ≠ .text s x)
    (hc : o.children = []) (ho : o.Alike K β o) {begun' : List (Stub Bool)}
    {hand' : Option (Hand Bool)}
    (hold : ∀ i, Holding F (g i) (R i) i begun' hand' ((h i).allocate (roots i) o).2)
    (hpaired : ∀ e ∈ begun', e ∈ begun ∨ ∀ i, e.ref i = ((h i).allocate (roots i) o).1)
    (hshared : ∀ x ∈ hand', ∀ i, x.value i = .object ((h i).allocate (roots i) o).1) :
    ∃ β', Abreast K F β₀ g R begun' hand' β' fun i => ((h i).allocate (roots i) o).2 := by
  have ha := fun i => (ht.holding i).laying.sound.allocate
    (fun x hx => (ht.holding i).laying.live x ((hroots i x).1 hx)) hnot (by simp [hc])
  refine ⟨_, hold, ht.grows.trans (ht.holding true).laying.underway.toEvolves (.allocated (ha true) _),
    ht.alike.allocated (ha true) (ha false) ho, fun e he => ?_, fun x hx => ?_⟩
  · rcases hpaired e he with he | he
    · exact β.le_add _ _ (ht.paired e he)
    · rw [he, he]
      exact β.add_self _ _
  · rw [hshared x hx, hshared x hx]
    exact .object (β.add_self _ _)

theorem layouts_abreast (K : Kinship) (hF : Object.Admits F) (β₀ : Pairing) (g : Bool → Heap)
    (R : Bool → List Ref) :
    Layouts F R fun begun hand h => ∃ β, Abreast K F β₀ g R begun hand β h where
  plain := by
    rintro begun h k v ⟨β, ht⟩ hk hv
    refine ⟨β, { ht with holding := (layouts_holding hF g R).plain ht.holding hk hv, shared := ?_ }⟩
    rintro x ⟨⟩
    exact .of_plain hv
  intern := by
    rintro begun h roots ⟨β, ht⟩ hroots s
    have hi := fun i =>
      (ht.holding i).laying.sound.intern
      (fun x hx => (ht.holding i).laying.live x ((hroots i x).1 hx)) s
    refine ⟨_, (layouts_holding hF g R).intern ht.holding hroots s,
      ht.grows.trans (ht.holding true).laying.underway.toEvolves (.internedAs (hi true) _),
      ht.alike.internedAs (hi true) (hi false), fun e he => β.le_add _ _ (ht.paired e he), ?_⟩
    rintro x ⟨⟩
    exact .object (β.add_self _ _)
  native := by
    rintro begun h roots ⟨β, ht⟩ hroots name hname
    refine ht.allocated hroots (by simp) rfl (.native _)
      ((layouts_holding hF g R).native ht.holding hroots hname) (fun _ => .inl) ?_
    rintro x ⟨⟩ i
    rfl
  function := by
    rintro begun h roots ⟨β, ht⟩ hroots
    refine ht.allocated hroots (by simp) rfl (.function ⟨.none, rfl, rfl, rfl, rfl, .nil⟩)
      ((layouts_holding hF g R).function ht.holding hroots) ?_ (by simp)
    exact List.forall_mem_cons.2 ⟨.inr fun _ => rfl, fun _ => .inl⟩
  name := by
    rintro begun h r p s a ⟨β, ht⟩
    refine ht.modify ((layouts_holding hF g R).name ht.holding) fun hff' => { hff' with name := ?_ }
    exact ht.names (Hand.names_text s a)
  start := by
    rintro begun hand h r q refs ⟨β, ht⟩ hname
    exact ht.modify ((layouts_holding hF g R).start q ht.holding hname) fun _ =>
      ⟨ht.names hname, rfl, rfl, rfl, rfl, .nil⟩
  header := by
    rintro begun h r p q ⟨β, ht⟩
    exact ht.modify ((layouts_holding hF g R).header q ht.holding) fun hff' =>
      ⟨hff'.name, rfl, rfl, rfl, rfl, hff'.constants⟩
  constant := by
    rintro begun h r p k v ⟨β, ht⟩
    refine ht.modify ((layouts_holding hF g R).constant ht.holding) fun hff' =>
      { hff' with constants := ?_ }
    simp only [Chunk.addConstant, Array.toList_push]
    exact forall₂_concat hff'.constants (ht.shared _ rfl)
  recharge := by
    rintro begun h r p ⟨β, ht⟩
    obtain ⟨hpaired, hrest⟩ := List.forall_mem_cons.1 ht.paired
    refine ⟨β, (layouts_holding hF g R).recharge ht.holding, ht.grows,
      ht.alike.agrees (agrees_recharge _ _) (agrees_recharge _ _), hrest, ?_⟩
    rintro x ⟨⟩
    exact .object hpaired
  note := by
    rintro begun hand h r ⟨β, ht⟩
    exact ⟨β, { ht with
      holding := (layouts_holding hF g R).note r ht.holding
      alike := ht.alike.agrees (agrees_noteListing _ _) (agrees_noteListing _ _) }⟩
  drop := by
    rintro begun hand h ⟨β, ht⟩
    exact ⟨β, { ht with holding := (layouts_holding hF g R).drop ht.holding, shared := by simp }⟩

end Heap

/-! ## Machines -/

namespace Machine.Alike

variable {B : Bond} {m1 m2 : Machine} (hB : B.Lawful) (hm : m1.Alike B none β m2)

omit hm in
theorem admits_fixed : Object.Admits Object.Fixed := fun _ ho => ho.fixed

include hm

theorem abreast : Heap.Abreast B.kin Object.Fixed β (fun i => cond i m1.heap m2.heap)
    (fun i => (Heap.withPending (cond i m1.roots m2.roots) []).refs) [] none β fun i =>
      cond i m1.heap m2.heap where
  holding i := by
    cases i with
    | true => exact .of_laying (Heap.Underway.refl hm.sound₁.heap fun x hx => hm.sound₁.roots hx)
    | false => exact .of_laying (Heap.Underway.refl hm.sound₂.heap fun x hx => hm.sound₂.roots hx)
  grows := .refl β _
  alike := hm.heap
  paired := by simp
  shared := by simp

include hB

theorem stored {begun : List (Stub Bool)} {hand : Option (Hand Bool)} {h : Bool → Heap}
    (ht : Heap.Abreast B.kin Object.Fixed β (fun i => cond i m1.heap m2.heap)
      (fun i => (Heap.withPending (cond i m1.roots m2.roots) []).refs)
      begun hand β' h) : Alike B none β' { m1 with heap := h true } { m2 with heap := h false } := by
  have hu1 := (ht.holding true).laying.underway
  have hu2 := (ht.holding false).laying.underway
  exact hm.evolves hB hu1.toEvolves hu2.toEvolves (Heap.Adds.addsNoOpen hu1.adds fun _ h => h)
    (Heap.Adds.addsNoOpen hu2.adds fun _ h => h) ht.grows.le ht.alike
    (ht.grows.fixed hu1.toEvolves hu1.adds fun _ h => h)

theorem compile (file source : String) : ∃ β' : Pairing, (∀ {a b}, β a b → β' a b) ∧
    (m1.compile file source).2.Alike B none β' (m2.compile file source).2 ∧
    match (m1.compile file source).1, (m2.compile file source).1 with
    | .ok r, .ok s => β' r s
    | .error ds, .error ds' => ds = ds'
    | _, _ => False := by
  obtain ⟨begun, hand, h, fin, hb, hbegun, ⟨β', ht⟩, hfin⟩ :=
    (Heap.layouts_abreast B.kin admits_fixed β _ _).steps m1.settings.printCode
      (fun ⟨_, ht⟩ => Heap.Holding.finds ht.holding)
      (admitted_builds file source) (Heap.Layouts.planned_start ⟨β, hm.abreast⟩)
  rw [show (Parlance.compile file source).builds.foldl Plan.step {} = _ from compileTokens_plan
    _] at hb hfin
  obtain ⟨r, rfl, rfl⟩ := hfin _ rfl
  have hb1 := congrFun hb true
  have hb2 := congrFun hb false
  dsimp only [cond] at hb1 hb2
  refine ⟨β', ht.grows.le, ?_, ?_⟩
  · rw [compile_snd, compile_snd, ← hm.printCode, Heap.buildAll, Heap.buildAll, hb1, hb2]
    exact hm.stored hB ht
  · rw [compile_fst, compile_fst, ← hm.printCode, Heap.buildAll, Heap.buildAll, hb1, hb2]
    cases (Parlance.compile file source).diagnostics with
    | cons d ds => rfl
    | nil =>
      cases ht.shared _ rfl with
      | object hrs => exact hrs

theorem load (p : Proto) : ∃ β' : Pairing, (∀ {a b}, β a b → β' a b) ∧
    (m1.load p).2.Alike B none β' (m2.load p).2 ∧ Heap.Pair β' (m1.load p).2.heap (m2.load p).2.heap
    (m1.load p).1
      (m2.load p).1 := by
  obtain ⟨β', ht⟩ := (Heap.layouts_abreast B.kin admits_fixed β _ _).script ⟨β, hm.abreast⟩
    (p.admitted_of_native fun _ => trivial)
  cases ht.shared _ rfl with
  | object hrs =>
    exact ⟨β', ht.grows.le, hm.stored hB ht, hrs, (ht.holding true).lays.live,
      (ht.holding false).lays.live⟩

end Machine.Alike

end Parlance
