/-
  Allocations.
-/
import Parlance.Proofs.Heap.Collection

namespace Parlance.Heap

-- no proof here looks into collections
attribute [local irreducible] collect

variable {h h' h'' g : Heap} {roots : List Ref} {r x : Ref} {o : Object}

/-! ## What allocations keep -/

/-- The heap `h'` comes from `h` by allocations, for which what `roots` reach is in use. -/
structure Evolves (h : Heap) (roots : List Ref) (h' : Heap) : Prop where
  sound : h'.Sound
  size_le : h.cells.size ≤ h'.cells.size
  kept : ∀ {r}, h.Reach roots r → h'.Live r
  old : ∀ {r}, h'.Live r → r.serial < h.cells.size → h.Live r ∧ h'.object? r = h.object? r
  settings_eq : h'.settings = h.settings

namespace Evolves

theorem refl (hs : h.Sound) (hroots : ∀ r ∈ roots, h.Live r) : h.Evolves roots h :=
  ⟨hs, Nat.le_refl _, fun hr => hs.live_of_reach hroots hr, fun hl _ => ⟨hl, rfl⟩, rfl⟩

theorem of_collected (hs : h.Sound) (hroots : ∀ r ∈ roots, h.Live r) (hc : h.Collected roots h') :
    h.Evolves roots h' where
  sound := hc.sound
  size_le := Nat.le_of_eq hc.size_eq.symm
  kept hr := (hc.live_iff _).2 hr
  old hl _ := ⟨hs.live_of_reach hroots ((hc.live_iff _).1 hl), hc.object_eq _ hl⟩
  settings_eq := hc.settings_eq

theorem object_eq (he : h.Evolves roots h') (hl : h.Live r) (hl' : h'.Live r) :
    h'.object? r = h.object? r :=
  (he.old hl' hl.lt).2

theorem live_of_mem (he : h.Evolves roots h') (hr : r ∈ roots) : h'.Live r := he.kept (.root hr)

theorem reach (he : h.Evolves roots h') (hroots : ∀ x ∈ roots, h.Live x) (hs : h.Sound)
    (hr : h.Reach roots r) : h'.Reach roots r := by
  induction hr with
  | root hx => exact .root hx
  | step hr ho hc ih =>
    have hl := hs.live_of_reach hroots hr
    exact .step ih ((he.object_eq hl (he.kept hr)).trans ho) hc

theorem trans {roots' : List Ref} (hs : h.Sound) (hroots : ∀ x ∈ roots, h.Live x)
    (he : h.Evolves roots h')
    (he' : h'.Evolves roots' h'') (hsub : ∀ x ∈ roots, x ∈ roots') : h.Evolves roots h'' where
  sound := he'.sound
  size_le := Nat.le_trans he.size_le he'.size_le
  kept hr := he'.kept ((he.reach hroots hs hr).mono hsub)
  old hl hlt := by
    obtain ⟨hl', heq⟩ := he'.old hl (Nat.lt_of_lt_of_le hlt he.size_le)
    obtain ⟨hl0, heq0⟩ := he.old hl' hlt
    exact ⟨hl0, heq.trans heq0⟩
  settings_eq := he'.settings_eq.trans he.settings_eq

theorem agrees (he : h.Evolves roots h') (ha : h'.Agrees h'') : h.Evolves roots h'' where
  sound := ha.sound he.sound
  size_le := by rw [ha.size_eq]; exact he.size_le
  kept hr := ha.live_iff.2 (he.kept hr)
  old hl hlt := by
    rw [ha.object_eq]
    exact he.old (ha.live_iff.1 hl) hlt
  settings_eq := ha.settings_eq.trans he.settings_eq

theorem setObject (he : h.Evolves roots h') {old : Object} (hr : h.cells.size ≤ r.serial)
    (hold : h'.object? r = some old) (hnot : ∀ s x, old ≠ .text s x) (hnot' : ∀ s x, o ≠ .text s x)
    (hc : ∀ c ∈ o.children, h'.Live c) : h.Evolves roots (h'.setObject r o) where
  sound := he.sound.setObject hold hnot hnot' hc
  size_le := by simpa [Heap.setObject] using he.size_le
  kept hr := (live_setObject ..).2 (he.kept hr)
  old := by
    intro x hl hlt
    have hne : r ≠ x := fun heq => Nat.lt_irrefl _ (Nat.lt_of_lt_of_le hlt (heq ▸ hr))
    rw [object?_setObject_of_ne hne]
    exact he.old ((live_setObject ..).1 hl) hlt
  settings_eq := he.settings_eq

end Evolves

/-! ## Objects -/

/-- Before an object is registered there may be a collection. -/
theorem allocate_eq (h : Heap) (roots : Roots) (o : Object) : ∃ g, (g = h ∨ g = h.collect roots) ∧
    h.allocate roots o = g.register o := by
  unfold allocate
  cases h.isDue o.size with
  | true => exact ⟨_, Or.inr rfl, rfl⟩
  | false => exact ⟨_, Or.inl rfl, rfl⟩

/-- What an allocation leaves. -/
structure Allocated (h : Heap) (roots : List Ref) (o : Object) (r : Ref) (h' : Heap) : Prop
    extends Evolves h roots h' where
  fresh : h.cells.size ≤ r.serial
  live_new : h'.Live r
  object_new : h'.object? r = some o
  live_old : ∀ {x}, h'.Live x → x = r ∨ h.Live x

theorem Sound.exists_grown (hs : h.Sound) {roots : Roots} (hroots : ∀ r ∈ roots.refs, h.Live r)
    (o : Object) :
    ∃ g, h.Evolves roots.refs g ∧ g.cells.size = h.cells.size ∧
      g.Grown o (h.allocate roots o).1 (h.allocate roots o).2 := by
  obtain ⟨g, hg, heq⟩ := h.allocate_eq roots o
  have hev : h.Evolves roots.refs g ∧ g.cells.size = h.cells.size := by
    rcases hg with rfl | rfl
    · exact ⟨.refl hs hroots, rfl⟩
    · have hc := hs.collect hroots
      exact ⟨.of_collected hs hroots hc, hc.size_eq⟩
  rw [heq]
  exact ⟨g, hev.1, hev.2, hev.1.sound.register o⟩

theorem Evolves.grown (he : h.Evolves roots g) (hg : g.Grown o r h') (hs : h'.Sound) :
    h.Evolves roots h' where
  sound := hs
  size_le := by rw [hg.size_eq]; exact Nat.le_succ_of_le he.size_le
  kept hr := (hg.live_iff _).2 (Or.inr (he.kept hr))
  old := by
    intro x hl hlt
    have hne : x ≠ r := fun heq => by
      rw [heq, hg.ref_eq] at hlt
      exact Nat.lt_irrefl _ (Nat.lt_of_lt_of_le hlt he.size_le)
    have hl' := ((hg.live_iff _).1 hl).resolve_left hne
    rw [hg.object_of_live hl']
    exact he.old hl' hlt
  settings_eq := hg.settings_eq.trans he.settings_eq

/-- **An allocation.** What the new object refers to has to be in use. -/
theorem Sound.allocate (hs : h.Sound) {roots : Roots} (hroots : ∀ r ∈ roots.refs, h.Live r)
    (hnot : ∀ s x, o ≠ .text s x) (hc : ∀ c ∈ o.children, h.Reach roots.refs c) :
    h.Allocated roots.refs o (h.allocate roots o).1 (h.allocate roots o).2 := by
  obtain ⟨g, he, hsize, hg⟩ := hs.exists_grown hroots o
  have hsound := he.sound.grown hg hnot fun c hc' => he.kept (hc c hc')
  refine ⟨he.grown hg hsound, ?_, (hg.live_iff _).2 (Or.inl rfl), hg.object_new, fun hl => ?_⟩
  · rw [hg.ref_eq]
    exact Nat.le_of_eq hsize.symm
  · rcases (hg.live_iff _).1 hl with rfl | hl
    · exact Or.inl rfl
    · exact Or.inr (he.old hl (hsize ▸ hl.lt)).1

/-! ## Strings -/

/-- What interning a text leaves. -/
structure InternedAs (h : Heap) (roots : List Ref) (text : String) (key : Symbol) (h' : Heap) : Prop
    extends Evolves h roots h' where
  text_eq : key.text = text
  hash_eq : key.hash = hashText text
  live_key : h'.Live key.ref
  object_key : h'.object? key.ref = some (.text text (hashText text))
  live_old : ∀ {x}, h'.Live x → x = key.ref ∨ h.Live x

theorem InternedAs.object_text {roots : List Ref} {text : String} {key : Symbol}
    (hi : h.InternedAs roots text key h') : h'.object? key.ref = some (.text key.text key.hash) := by
  rw [hi.text_eq, hi.hash_eq]
  exact hi.object_key

theorem Interned.findText?_eq_some_iff (hi : h.Interned) {text : String} {k : Symbol} :
    h.strings.findText? text (hashText text) = some k ↔
      k.text = text ∧ h.Live k.ref ∧ h.object? k.ref = some (.text k.text k.hash) := by
  rw [hi.valid.findText?_eq_some_iff]
  · constructor
    · rintro ⟨ht, u, hu⟩
      exact ⟨ht, hi.holds_iff.1 hu⟩
    · rintro ⟨ht, hk⟩
      exact ⟨ht, (), hi.holds_iff.2 hk⟩
  · intro k u hk
    obtain ⟨hl, ho⟩ := hi.holds_iff.1 hk
    exact hi.hash_eq hl ho
  · intro k u k' u' hk hk' ht
    obtain ⟨hl, ho⟩ := hi.holds_iff.1 hk
    obtain ⟨hl', ho'⟩ := hi.holds_iff.1 hk'
    rw [← ht] at ho'
    obtain ⟨ref, text, hash⟩ := k
    obtain ⟨ref', text', hash'⟩ := k'
    simp only at hl ho hl' ho' ht
    obtain rfl := hi.unique hl hl' ho ho'
    rw [ho] at ho'
    cases ho'
    rw [ht]

theorem Interned.grown_text (hi : g.Interned) {text : String}
    (hg : g.Grown (.text text (hashText text)) r h')
    (hnew : g.strings.findText? text (hashText text) = none) :
    Interned { h' with strings := (h'.strings.set ⟨r, text, hashText text⟩ ()).2 } := by
  have hlive : ∀ {x}, Live { h' with strings := (h'.strings.set ⟨r, text, hashText text⟩ ()).2 } x ↔
      x = r ∨ g.Live x := fun {x} => hg.live_iff x
  have habsent : ∀ {x n}, g.Live x → g.object? x ≠ some (.text text n) := by
    intro x n hl ho
    have hx : g.strings.findText? text (hashText text) = some ⟨x, text, n⟩ :=
      hi.findText?_eq_some_iff.2 ⟨rfl, hl, ho⟩
    rw [hnew] at hx
    cases hx
  have hold : ∀ {x}, g.Live x → h'.object? x = g.object? x := fun hl => hg.object_of_live hl
  have hknows : h'.strings.Knows ⟨r, text, hashText text⟩ := by
    intro k u hk href
    rw [hg.strings_eq, hi.holds_iff] at hk
    exact (hg.ne_of_live hk.1 href).elim
  have hvalid : h'.strings.Valid := hg.strings_eq ▸ hi.valid
  obtain ⟨hvalid', hholds, -⟩ := hvalid.set_spec hknows ()
  refine ⟨hvalid', ?_, ?_, ?_⟩
  · intro k u
    rw [hholds, hlive, hg.strings_eq, hi.holds_iff]
    constructor
    · rintro (⟨rfl, -⟩ | ⟨-, hl, ho⟩)
      · exact ⟨Or.inl rfl, hg.object_new⟩
      · exact ⟨Or.inr hl, (hold hl).trans ho⟩
    · rintro ⟨heq | hl, ho⟩
      · refine Or.inl ⟨?_, rfl⟩
        have ho' : h'.object? k.ref = some (.text k.text k.hash) := ho
        rw [heq, hg.object_new] at ho'
        obtain ⟨ref, text', hash'⟩ := k
        simp only [Option.some.injEq, Object.text.injEq] at ho' heq
        rw [heq, ← ho'.1, ← ho'.2]
      · exact Or.inr ⟨hg.ne_of_live hl, hl, (hold hl).symm.trans ho⟩
  · intro x s n hl ho
    have ho' : h'.object? x = some (.text s n) := ho
    rcases hlive.1 hl with rfl | hl
    · rw [hg.object_new] at ho'
      cases ho'
      rfl
    · exact hi.hash_eq hl ((hold hl).symm.trans ho')
  · intro x x' s n n' hl hl' ho ho'
    have ho1 : h'.object? x = some (.text s n) := ho
    have ho2 : h'.object? x' = some (.text s n') := ho'
    rcases hlive.1 hl with rfl | hlx
    · rcases hlive.1 hl' with rfl | hl'
      · rfl
      · rw [hg.object_new] at ho1
        cases ho1
        exact (habsent hl' ((hold hl').symm.trans ho2)).elim
    · rcases hlive.1 hl' with rfl | hl'
      · rw [hg.object_new] at ho2
        cases ho2
        exact (habsent hlx ((hold hlx).symm.trans ho1)).elim
      · exact hi.unique hlx hl' ((hold hlx).symm.trans ho1) ((hold hl').symm.trans ho2)

theorem Sound.grown_text (hs : g.Sound) {text : String}
    (hg : g.Grown (.text text (hashText text)) r h')
    (hnew : g.strings.findText? text (hashText text) = none) :
    Sound { h' with strings := (h'.strings.set ⟨r, text, hashText text⟩ ()).2 } where
  slot_eq := hg.registered.slot_eq
  free_iff := hg.registered.free_iff
  free_nodup := hg.registered.free_nodup
  generations_size := hg.registered.generations_size
  unmarked := hg.registered.unmarked
  toInterned := hs.toInterned.grown_text hg hnew
  closed := by
    intro x o hl ho c hc
    have ho' : h'.object? x = some o := ho
    rcases (hg.live_iff x).1 hl with rfl | hl
    · rw [hg.object_new] at ho'
      cases ho'
      simp [Object.children] at hc
    · exact (hg.live_iff c).2 (Or.inr (hs.closed hl ((hg.object_of_live hl).symm.trans ho') c hc))

/-- **Interning**: there is one string with the text, and that is the result. -/
theorem Sound.intern (hs : h.Sound) {roots : Roots} (hroots : ∀ r ∈ roots.refs, h.Live r)
    (text : String) :
    h.InternedAs roots.refs text (h.intern roots text).1 (h.intern roots text).2 := by
  unfold Heap.intern
  dsimp only
  cases hfind : h.strings.findText? text (hashText text) with
  | some key =>
    obtain ⟨ht, hl, ho⟩ := hs.findText?_eq_some_iff.1 hfind
    have hhash : key.hash = hashText text := (hs.hash_eq hl ho).trans (by rw [ht])
    refine ⟨.refl hs hroots, ht, hhash, hl, ?_, Or.inr⟩
    rw [ho, ht, hhash]
  | none =>
    obtain ⟨g, he, hsize, hg⟩ := hs.exists_grown hroots (.text text (hashText text))
    have hnone : g.strings.findText? text (hashText text) = none := by
      -- a collection takes strings away and adds none
      cases hg' : g.strings.findText? text (hashText text) with
      | none => rfl
      | some k =>
        obtain ⟨ht, hl, ho⟩ := he.sound.findText?_eq_some_iff.1 hg'
        obtain ⟨hl0, heq⟩ := he.old hl (hsize ▸ hl.lt)
        have hk : h.strings.findText? text (hashText text) = some k :=
          hs.findText?_eq_some_iff.2 ⟨ht, hl0, heq ▸ ho⟩
        rw [hfind] at hk
        cases hk
    have hsound := he.sound.grown_text hg hnone
    dsimp only
    generalize (h.allocate roots (.text text (hashText text))).1 = r at *
    generalize (h.allocate roots (.text text (hashText text))).2 = h' at *
    have hgrown : g.Grown (.text text (hashText text)) r h' := hg
    refine ⟨⟨hsound, ?_, ?_, ?_, ?_⟩, rfl, rfl, (hg.live_iff _).2 (Or.inl rfl), hg.object_new, ?_⟩
    · have := hg.size_eq
      simp only
      omega
    · exact fun hr => (hg.live_iff _).2 (Or.inr (he.kept hr))
    · intro x hl hlt
      have hne : x ≠ r := fun heq => by
        rw [heq, hg.ref_eq] at hlt
        exact Nat.lt_irrefl _ (hsize ▸ hlt)
      have hl' := ((hg.live_iff x).1 hl).resolve_left hne
      obtain ⟨hl0, heq⟩ := he.old hl' hlt
      exact ⟨hl0, (hg.object_of_live hl').trans heq⟩
    · exact hg.settings_eq.trans he.settings_eq
    · intro x hl
      rcases (hg.live_iff x).1 hl with rfl | hl
      · exact Or.inl rfl
      · exact Or.inr (he.old hl (hsize ▸ hl.lt)).1

end Parlance.Heap
