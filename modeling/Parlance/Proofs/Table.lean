/-
  Tables as finite maps.

  A search stops at an empty slot at the latest. One slot in four is empty, so it stops.
-/
import Parlance.Table

namespace Parlance.Table

variable {α : Type} {es : Array (Entry α)} {t : Table α} {key k k' : Symbol} {v v' : α} {i j : Nat}
  {hash : UInt32}

/-! ## Searches -/

/-- Slot `i` has the key `k` with the value `v`. -/
abbrev LiveAt (es : Array (Entry α)) (i : Nat) (k : Symbol) (v : α) : Prop := es[i]? = some (.live k v)

/-- A search goes on behind the entry. -/
def isUsed : Entry α → Bool
  | .empty => false
  | _ => true

/-- The slot looked at after `j` others in a search for `hash`. -/
def spot (es : Array (Entry α)) (hash : UInt32) (j : Nat) : Nat := (hash.toNat + j) % es.size

/-- The first `n` slots in a search for `hash` do not end it. -/
def GoesOn (es : Array (Entry α)) (hash : UInt32) (n : Nat) : Prop :=
  ∀ j < n, ∃ e, es[spot es hash j]? = some e ∧ isUsed e = true

/-- None of the first `n` slots in a search for `key` has it. -/
def Passes (es : Array (Entry α)) (key : Symbol) (n : Nat) : Prop :=
  ∀ j < n, ∀ k v, LiveAt es (spot es key.hash j) k v → k.ref ≠ key.ref

/-- A search for `hash` comes to slot `i`. -/
def Met (es : Array (Entry α)) (hash : UInt32) (i : Nat) : Prop :=
  ∃ j < es.size, i = spot es hash j ∧ GoesOn es hash j

theorem spot_lt (hpos : 0 < es.size) (hash : UInt32) (j : Nat) : spot es hash j < es.size :=
  Nat.mod_lt _ hpos

theorem spot_succ (es : Array (Entry α)) (hash : UInt32) (j : Nat) :
    (spot es hash j + 1) % es.size = spot es hash (j + 1) := by
  simp only [spot, Nat.mod_add_mod, Nat.add_assoc]

theorem exists_spot (hash : UInt32) (hi : i < es.size) : ∃ j < es.size, spot es hash j = i := by
  have hlt : hash.toNat % es.size < es.size := Nat.mod_lt _ (by omega)
  by_cases hle : hash.toNat % es.size ≤ i
  · refine ⟨i - hash.toNat % es.size, by omega, ?_⟩
    rw [spot, ← Nat.mod_add_mod, Nat.add_sub_cancel' hle, Nat.mod_eq_of_lt hi]
  · refine ⟨es.size - hash.toNat % es.size + i, by omega, ?_⟩
    rw [spot, ← Nat.mod_add_mod]
    rw [show hash.toNat % es.size + (es.size - hash.toNat % es.size + i) = i + es.size by omega]
    rw [Nat.add_mod_right, Nat.mod_eq_of_lt hi]

theorem GoesOn.succ {e : Entry α} (h : GoesOn es hash j) (he : es[spot es hash j]? = some e)
    (hused : isUsed e = true) : GoesOn es hash (j + 1) := by
  intro j' hj'
  rcases Nat.lt_succ_iff_lt_or_eq.1 hj' with hj' | rfl
  · exact h j' hj'
  · exact ⟨e, he, hused⟩

theorem GoesOn.not_empty_of_lt {n : Nat} (h : GoesOn es hash n) (hj : j < n) :
    es[spot es hash j]? ≠ some Entry.empty := by
  intro hi
  obtain ⟨e, he, hused⟩ := h j hj
  cases hi.symm.trans he
  cases hused

/-- A round without an end means that no slot is empty. -/
theorem GoesOn.not_empty (h : GoesOn es hash es.size) : es[i]? ≠ some Entry.empty := by
  intro hi
  obtain ⟨j, hj, rfl⟩ := exists_spot hash (Array.getElem?_eq_some_iff.1 hi).1
  exact h.not_empty_of_lt hj hi

theorem Passes.succ (h : Passes es key j)
    (hj : ∀ k v, LiveAt es (spot es key.hash j) k v → k.ref ≠ key.ref) : Passes es key (j + 1) := by
  intro j' hj'
  rcases Nat.lt_succ_iff_lt_or_eq.1 hj' with hj' | rfl
  · exact h j' hj'
  · exact hj

/-- What a search for `key` ends with: its slot, or one where it may go. -/
inductive Search (es : Array (Entry α)) (key : Symbol) (r : Nat) : Prop
  | hit {k : Symbol} {v : α} : LiveAt es r k v → k.ref = key.ref → Search es key r
  | miss {e : Entry α} {m : Nat} : es[r]? = some e → isLive e = false → Met es key.hash r →
      es[spot es key.hash m]? = some .empty → Passes es key m → Search es key r

/-- The search for `key` from slot `index` on ends with slot `r`. -/
inductive Ends (es : Array (Entry α)) (key : Symbol) :
    (index : Nat) → (grave : Option Nat) → (r : Nat) → Prop
  | found {i : Nat} {grave : Option Nat} {k : Symbol} {v : α} : es[i]? = some (.live k v) →
      k.ref = key.ref → Ends es key i grave i
  | pass {i r : Nat} {grave : Option Nat} {k : Symbol} {v : α} : es[i]? = some (.live k v) →
      k.ref ≠ key.ref → Ends es key ((i + 1) % es.size) grave r → Ends es key i grave r
  | bury {i r : Nat} {grave : Option Nat} : es[i]? = some .tombstone →
      Ends es key ((i + 1) % es.size) (grave.or (some i)) r → Ends es key i grave r
  | stop {i : Nat} {grave : Option Nat} : es[i]? = some .empty → Ends es key i grave (grave.getD i)

theorem probe_ends (hempty : es[i]? = some Entry.empty) (fuel j : Nat) (grave : Option Nat)
    (hfuel : j + fuel = es.size) (hon : GoesOn es key.hash j) :
    Ends es key (spot es key.hash j) grave (probe es key fuel (spot es key.hash j) grave) := by
  induction fuel generalizing j grave with
  | zero => exact (GoesOn.not_empty (by rw [← hfuel]; exact hon) hempty).elim
  | succ fuel ih =>
    have hlt : spot es key.hash j < es.size := spot_lt (by omega) key.hash j
    obtain ⟨e, he⟩ : ∃ e, es[spot es key.hash j]? = some e := ⟨_, Array.getElem?_eq_getElem hlt⟩
    rw [probe, he]
    cases e with
    | empty => exact .stop he
    | tombstone =>
      refine .bury he ?_
      dsimp only
      rw [spot_succ]
      exact ih (j + 1) _ (by omega) (hon.succ he rfl)
    | live k v =>
      dsimp only
      split
      · rename_i hk
        exact .found he (eq_of_beq hk)
      · rename_i hk
        refine .pass he (fun h => hk (beq_iff_eq.2 h)) ?_
        rw [spot_succ]
        exact ih (j + 1) _ (by omega) (hon.succ he rfl)

theorem Ends.search {grave : Option Nat} {r : Nat} (h : Ends es key i grave r)
    (hi : i = spot es key.hash j) (hon : GoesOn es key.hash j) (hpass : Passes es key j)
    (hgrave : ∀ s, grave = some s → ∃ g < j, s = spot es key.hash g ∧ es[s]? = some .tombstone) :
    Search es key r := by
  induction h generalizing j with subst hi
  | found he hk => exact .hit he hk
  | pass he hk _ ih =>
    refine ih (spot_succ ..) (hon.succ he rfl) (hpass.succ fun k' v' hk' => ?_) fun s hs =>
      (hgrave s hs).imp fun _ hg => ⟨Nat.lt_succ_of_lt hg.1, hg.2⟩
    cases he.symm.trans hk'
    exact hk
  | @bury _ _ grave he _ ih =>
    refine ih (spot_succ ..) (hon.succ he rfl) (hpass.succ fun k' v' hk' => ?_) fun s hs => ?_
    · cases he.symm.trans hk'
    · cases grave with
      | none =>
        cases hs
        exact ⟨j, Nat.lt_succ_self j, rfl, he⟩
      | some s' => exact (hgrave s hs).imp fun _ hg => ⟨Nat.lt_succ_of_lt hg.1, hg.2⟩
  | @stop _ grave he =>
    have hlt : j < es.size :=
      Nat.lt_of_not_le fun hle => GoesOn.not_empty (fun j' hj' => hon j' (by omega)) he
    cases grave with
    | none => exact .miss he rfl ⟨j, hlt, rfl, hon⟩ he hpass
    | some s =>
      obtain ⟨g, hg, rfl, hs⟩ := hgrave s rfl
      exact .miss hs rfl ⟨g, by omega, rfl, fun j' hj' => hon j' (by omega)⟩ he hpass

theorem findSlot_spec (hempty : es[i]? = some Entry.empty) (key : Symbol) :
    Search es key (findSlot es key) :=
  (probe_ends hempty es.size 0 none (by omega) fun _ h => by omega).search rfl (fun _ h => by omega)
    (fun _ h => by omega) (by simp)

/-! ## Valid tables -/

/-- The table has the value `v` under the key `k`. -/
def Holds (t : Table α) (k : Symbol) (v : α) : Prop := ∃ i, LiveAt t.entries i k v

/-- A key stands in one slot, to which a search for it comes. -/
structure Placed (es : Array (Entry α)) : Prop where
  unique : ∀ {i j k k' v v'}, LiveAt es i k v → LiveAt es j k' v' → k.ref = k'.ref → i = j
  met : ∀ {i k v}, LiveAt es i k v → Met es k.hash i

/-- The counter is right and there is room. -/
structure Valid (t : Table α) : Prop extends Placed t.entries where
  capacity_eq : t.entries.size = 0 ∨ ∃ n, t.entries.size = 8 * Nat.pow 2 n
  count_eq : t.count = t.entries.countP isUsed
  room : 4 * t.count ≤ 3 * t.entries.size

/-- What the table has under the identity of `key` is `key`. -/
def Knows (t : Table α) (key : Symbol) : Prop := ∀ k v, t.Holds k v → k.ref = key.ref → k = key

theorem mem_entriesList {e : Symbol × α} : e ∈ t.entriesList ↔ t.Holds e.1 e.2 := by
  obtain ⟨k, v⟩ := e
  simp only [entriesList, List.mem_filterMap, Holds]
  constructor
  · rintro ⟨e, he, heq⟩
    cases e with
    | live k' v' =>
      cases heq
      exact Array.mem_iff_getElem?.1 (Array.mem_toList_iff.1 he)
    | _ => cases heq
  · rintro ⟨i, hi⟩
    exact ⟨.live k v, Array.mem_toList_iff.2 (Array.mem_iff_getElem?.2 ⟨i, hi⟩), rfl⟩

theorem valid_empty : Valid ({} : Table α) where
  unique h := by simp [LiveAt] at h
  met h := by simp [LiveAt] at h
  capacity_eq := Or.inl rfl
  count_eq := by simp
  room := Nat.zero_le _

theorem exists_empty (hlt : es.countP isUsed < es.size) : ∃ i : Nat, es[i]? = some Entry.empty := by
  have hne : ¬ ∀ e ∈ es, isUsed e = true := fun h => by
    have := Array.countP_eq_size.2 h
    omega
  simp only [Classical.not_forall] at hne
  obtain ⟨e, he, hused⟩ := hne
  obtain ⟨i, hi⟩ := Array.mem_iff_getElem?.1 he
  refine ⟨i, ?_⟩
  cases e with
  | empty => exact hi
  | _ => simp [isUsed] at hused

theorem Valid.exists_empty (ht : t.Valid) (hpos : t.count ≠ 0) :
    ∃ i : Nat, t.entries[i]? = some Entry.empty := by
  have := ht.room
  exact Table.exists_empty (by rw [← ht.count_eq]; omega)

/-- A search comes to a key before it comes to an empty slot. -/
theorem Met.before {m : Nat} (h : Met es hash i) (hi : LiveAt es i k v)
    (hempty : es[spot es hash m]? = some .empty) : ∃ j < m, i = spot es hash j := by
  obtain ⟨j, -, rfl, hon⟩ := h
  rcases Nat.lt_trichotomy j m with hlt | rfl | hlt
  · exact ⟨j, hlt, rfl⟩
  · cases hi.symm.trans hempty
  · exact (hon.not_empty_of_lt hlt hempty).elim

theorem Placed.absent (hp : Placed es) {m : Nat} (hempty : es[spot es key.hash m]? = some .empty)
    (hpass : Passes es key m) : ¬ LiveAt es i key v := by
  intro hi
  obtain ⟨j, hj, rfl⟩ := (hp.met hi).before hi hempty
  exact hpass j hj key v hi rfl

theorem Valid.count_ne_zero (ht : t.Valid) (h : t.Holds k v) : t.count ≠ 0 := by
  obtain ⟨i, hi⟩ := h
  intro h0
  have hall := Array.countP_eq_zero.1 (ht.count_eq.symm.trans h0)
  exact hall _ (Array.mem_iff_getElem?.2 ⟨i, hi⟩) rfl

theorem Placed.holds_unique (ht : Placed t.entries) (h : t.Holds k v) (h' : t.Holds k' v')
    (href : k.ref = k'.ref) : k = k' ∧ v = v' := by
  obtain ⟨i, hi⟩ := h
  obtain ⟨j, hj⟩ := h'
  obtain rfl := ht.unique hi hj href
  rw [LiveAt, hi] at hj
  cases hj
  exact ⟨rfl, rfl⟩

/-- **A key is found exactly if the table holds it.** -/
theorem Valid.get?_eq_some_iff (ht : t.Valid) (hknows : t.Knows key) :
    t.get? key = some v ↔ t.Holds key v := by
  by_cases h0 : t.count = 0
  · simp only [get?, h0, beq_self_eq_true, if_true, reduceCtorEq, false_iff]
    exact fun h => ht.count_ne_zero h h0
  obtain ⟨i0, hi0⟩ := ht.exists_empty h0
  rw [get?, if_neg (by simpa using h0)]
  cases findSlot_spec hi0 key with
  | @hit k v' hk href =>
    obtain rfl := hknows k v' ⟨_, hk⟩ href
    simp only [hk, Option.some.injEq]
    constructor
    · rintro rfl
      exact ⟨_, hk⟩
    · exact fun h => (ht.holds_unique ⟨_, hk⟩ h rfl).2
  | @miss e m he hdead _ hempty hpass =>
    rw [he]
    constructor
    · intro h
      cases e with
      | live => simp [isLive] at hdead
      | _ => cases h
    · rintro ⟨i, hi⟩
      exact (ht.absent hempty hpass hi).elim

/-! ## Changing one slot -/

/-- Where slots stay used, searches go where they went. -/
theorem Met.of_used {fs : Array (Entry α)} (h : Met es hash j) (hsize : fs.size = es.size)
    (hused : ∀ (i : Nat) e, es[i]? = some e → isUsed e = true → ∃ e', fs[i]? = some e' ∧
      isUsed e' = true) :
    Met fs hash j := by
  obtain ⟨n, hn, rfl, hon⟩ := h
  refine ⟨n, hsize ▸ hn, by simp only [spot, hsize], fun n' hn' => ?_⟩
  obtain ⟨e, he, hu⟩ := hon n' hn'
  have := hused _ e he hu
  simpa only [spot, hsize] using this

theorem Met.setIfInBounds {e : Entry α} (h : Met es hash j) (hused : isUsed e = true) :
    Met (es.setIfInBounds i e) hash j := by
  refine h.of_used Array.size_setIfInBounds fun n e' he' hused' => ?_
  rw [Array.getElem?_setIfInBounds]
  split
  · have hlt := (Array.getElem?_eq_some_iff.1 he').1
    rw [if_pos (by omega)]
    exact ⟨e, rfl, hused⟩
  · exact ⟨e', he', hused'⟩

theorem countP_setIfInBounds {e e' : Entry α} (he : es[i]? = some e) (hused : isUsed e' = true) :
    (es.setIfInBounds i e').countP isUsed = es.countP isUsed + if isUsed e then 0 else 1 := by
  obtain ⟨hlt, rfl⟩ := Array.getElem?_eq_some_iff.1 he
  rw [Array.setIfInBounds_def, dif_pos hlt, Array.countP_set hlt, hused]
  by_cases h : isUsed es[i] = true
  · have hpos : 0 < es.countP isUsed := Array.countP_pos_iff.2 ⟨_, Array.getElem_mem hlt, h⟩
    simp only [h, if_true]
    omega
  · simp [h]

theorem liveAt_put (hi : i < es.size) {key : Symbol} {w : α} :
    LiveAt (es.setIfInBounds i (.live key w)) j k v ↔
      j = i ∧ k = key ∧ v = w ∨ j ≠ i ∧ LiveAt es j k v := by
  rw [LiveAt, Array.getElem?_setIfInBounds]
  by_cases h : i = j
  · subst h
    simp [hi, eq_comm]
  · rw [if_neg h]
    simp [Ne.symm h]

/-- Slot `i` is the one for `key`. -/
structure SlotFor (es : Array (Entry α)) (key : Symbol) (i : Nat) : Prop where
  met : Met es key.hash i
  lt : i < es.size
  own : ∀ {k v}, LiveAt es i k v → k.ref = key.ref
  only : ∀ {j k v}, LiveAt es j k v → k.ref = key.ref → j = i

theorem SlotFor.absent (hs : SlotFor es key i) {e : Entry α} (he : es[i]? = some e)
    (hdead : isLive e = false) (hj : LiveAt es j k v) : k.ref ≠ key.ref := by
  intro href
  obtain rfl := hs.only hj href
  cases he.symm.trans hj
  cases hdead

theorem Placed.slotFor (hp : Placed es) (hempty : es[i]? = some Entry.empty)
    (hknows : ∀ {i k v}, LiveAt es i k v → k.ref = key.ref → k = key) :
    SlotFor es key (findSlot es key) := by
  cases findSlot_spec hempty key with
  | @hit k v hk href =>
    obtain rfl := hknows hk href
    refine ⟨hp.met hk, (Array.getElem?_eq_some_iff.1 hk).1, ?_, fun hj href' => hp.unique hj hk href'⟩
    intro k' v' hk'
    rw [LiveAt, hk] at hk'
    cases hk'
    rfl
  | @miss e m he hdead hmet hempty hpass =>
    refine ⟨hmet, (Array.getElem?_eq_some_iff.1 he).1, ?_, ?_⟩
    · intro k v hk
      rw [LiveAt, he] at hk
      cases hk
      simp [isLive] at hdead
    · intro j k v hk href
      obtain rfl := hknows hk href
      exact (hp.absent hempty hpass hk).elim

theorem Placed.put (hp : Placed es) (hs : SlotFor es key i) (w : α) :
    Placed (es.setIfInBounds i (.live key w)) where
  unique h h' href := by
    rcases (liveAt_put hs.lt).1 h with ⟨rfl, rfl, rfl⟩ | ⟨-, hold⟩
    · rcases (liveAt_put hs.lt).1 h' with ⟨rfl, rfl, rfl⟩ | ⟨-, hold'⟩
      · rfl
      · exact (hs.only hold' href.symm).symm
    · rcases (liveAt_put hs.lt).1 h' with ⟨rfl, rfl, rfl⟩ | ⟨-, hold'⟩
      · exact hs.only hold href
      · exact hp.unique hold hold' href
  met h := by
    rcases (liveAt_put hs.lt).1 h with ⟨rfl, rfl, rfl⟩ | ⟨-, h⟩
    · exact hs.met.setIfInBounds rfl
    · exact (hp.met h).setIfInBounds rfl

theorem SlotFor.holds_put (hs : SlotFor es key i) {n m : Nat} {w : α} :
    Holds ⟨n, es.setIfInBounds i (.live key w)⟩ k v ↔
      k = key ∧ v = w ∨ k.ref ≠ key.ref ∧ Holds ⟨m, es⟩ k v := by
  constructor
  · rintro ⟨j, hj⟩
    rcases (liveAt_put hs.lt).1 hj with ⟨-, rfl, rfl⟩ | ⟨hne, hj⟩
    · exact Or.inl ⟨rfl, rfl⟩
    · exact Or.inr ⟨fun href => hne (hs.only hj href), j, hj⟩
  · rintro (⟨rfl, rfl⟩ | ⟨hne, j, hj⟩)
    · exact ⟨i, (liveAt_put hs.lt).2 (Or.inl ⟨rfl, rfl, rfl⟩)⟩
    · refine ⟨j, (liveAt_put hs.lt).2 (Or.inr ⟨?_, hj⟩)⟩
      rintro rfl
      exact hne (hs.own hj)

/-! ## Growing -/

/-- One entry moves to a fresh row of slots. -/
def moveTo (u : Table α) (e : Entry α) : Table α :=
  match e with
  | .live key value =>
    { count := u.count + 1
      entries := u.entries.setIfInBounds (findSlot u.entries key) (.live key value) }
  | _ => u

theorem resize_eq (t : Table α) (capacity : Nat) :
    t.resize capacity = t.entries.toList.foldl moveTo ⟨0, Array.replicate capacity .empty⟩ := by
  rw [Array.foldl_toList]
  rfl

/-- A table without tombstones that took the live entries of `l`. -/
structure Moved (size : Nat) (l : List (Entry α)) (u : Table α) : Prop extends Placed u.entries where
  size_eq : u.entries.size = size
  count_eq : u.count = u.entries.countP isUsed
  count_live : u.count = l.countP isLive
  clean : ∀ i : Nat, u.entries[i]? ≠ some .tombstone
  holds : ∀ {k v}, u.Holds k v ↔ Entry.live k v ∈ l

/-- Keys of different entries differ. -/
def Apart (e e' : Entry α) : Prop :=
  ∀ k v k' v', e = .live k v → e' = .live k' v' → k.ref ≠ k'.ref

theorem Moved.moveTo {size : Nat} {l : List (Entry α)} {u : Table α} (hu : Moved size l u)
    {e : Entry α} (hroom : (l ++ [e]).countP isLive ≤ size) (hnew : ∀ e' ∈ l, Apart e' e) :
    Moved size (l ++ [e]) (u.moveTo e) := by
  cases e with
  | live key value =>
    have hlt : u.entries.countP isUsed < u.entries.size := by
      rw [← hu.count_eq, hu.count_live, hu.size_eq]
      simp only [List.countP_append, List.countP_singleton, isLive, if_true] at hroom
      omega
    obtain ⟨i0, hi0⟩ := exists_empty hlt
    have habsent : ∀ {i k v}, LiveAt u.entries i k v → k.ref ≠ key.ref := fun hk =>
      hnew _ (hu.holds.1 ⟨_, hk⟩) _ _ _ _ rfl rfl
    have hs : SlotFor u.entries key (findSlot u.entries key) :=
      hu.toPlaced.slotFor hi0 fun hk href => (habsent hk href).elim
    have hfree : u.entries[findSlot u.entries key]? = some .empty := by
      have hlt := hs.lt
      cases he : u.entries[findSlot u.entries key] with
      | empty => rw [Array.getElem?_eq_getElem hlt, he]
      | tombstone => exact (hu.clean _ (by rw [Array.getElem?_eq_getElem hlt, he])).elim
      | live k v =>
        have hk : LiveAt u.entries (findSlot u.entries key) k v := by
          rw [LiveAt, Array.getElem?_eq_getElem hlt, he]
        exact (habsent hk (hs.own hk)).elim
    refine ⟨hu.toPlaced.put hs value, ?_, ?_, ?_, ?_, ?_⟩
    · simpa [Table.moveTo] using hu.size_eq
    · simp only [Table.moveTo]
      rw [countP_setIfInBounds hfree rfl, ← hu.count_eq]
      rfl
    · simp [Table.moveTo, hu.count_live, isLive]
    · intro i
      simp only [Table.moveTo]
      rw [Array.getElem?_setIfInBounds]
      split
      · simp
      · exact hu.clean i
    · intro k v
      have hput : (u.moveTo (.live key value)).Holds k v ↔ k = key ∧ v = value ∨ k.ref ≠ key.ref ∧
        u.Holds k v :=
        hs.holds_put
      rw [hput, List.mem_append, List.mem_singleton, Entry.live.injEq]
      constructor
      · rintro (h | ⟨-, h⟩)
        · exact Or.inr h
        · exact Or.inl (hu.holds.1 h)
      · rintro (h | h)
        · obtain ⟨i, hi⟩ := hu.holds.2 h
          exact Or.inr ⟨habsent hi, i, hi⟩
        · exact Or.inl h
  | _ =>
    refine ⟨hu.toPlaced, hu.size_eq, hu.count_eq, ?_, hu.clean, ?_⟩
    · simp [Table.moveTo, hu.count_live, isLive]
    · intro k v
      simpa [Table.moveTo] using hu.holds

theorem foldl_moveTo {size : Nat} (l done : List (Entry α)) {u : Table α} (hu : Moved size done u)
    (hroom : (done ++ l).countP isLive ≤ size) (hapart : (done ++ l).Pairwise Apart) :
    Moved size (done ++ l) (l.foldl moveTo u) := by
  induction l generalizing done u with
  | nil => simpa using hu
  | cons e l ih =>
    have hnew : ∀ e' ∈ done, Apart e' e := fun e' he' =>
      (List.pairwise_append.1 hapart).2.2 e' he' e List.mem_cons_self
    have hstep : (done ++ [e]).countP isLive ≤ size := by
      rw [List.append_cons, List.countP_append] at hroom
      omega
    have hmoved : Moved size (done ++ [e]) (u.moveTo e) := hu.moveTo hstep hnew
    have := ih (done ++ [e]) hmoved (by simpa using hroom) (by simpa using hapart)
    simpa using this

theorem Placed.pairwise_apart (hp : Placed es) : es.toList.Pairwise Apart := by
  rw [List.pairwise_iff_getElem]
  intro i j hi hj hij k v k' v' he he' href
  have h : LiveAt es i k v := by
    rw [LiveAt, Array.getElem?_eq_getElem (by simpa using hi)]; simpa using he
  have h' : LiveAt es j k' v' := by
    rw [LiveAt, Array.getElem?_eq_getElem (by simpa using hj)]; simpa using he'
  have := hp.unique h h' href
  omega

theorem moved_replicate (size : Nat) : Moved size [] (⟨0, Array.replicate size .empty⟩ : Table α) := by
  have hget : ∀ {i : Nat} {e : Entry α}, (Array.replicate size Entry.empty)[i]? = some e →
      e = .empty := by
    intro i e h
    rw [Array.getElem?_replicate] at h
    split at h <;> simp_all
  have hnone : ∀ {i k v}, ¬ LiveAt (Array.replicate size (Entry.empty : Entry α)) i k v := fun h => by
    simpa using hget h
  refine ⟨⟨fun h => (hnone h).elim, fun h => (hnone h).elim⟩, by simp, ?_, rfl, fun i h => ?_, ?_⟩
  · simp [Array.countP_replicate, isUsed]
  · simpa using hget h
  · intro k v
    simp only [List.not_mem_nil, iff_false]
    rintro ⟨i, hi⟩
    exact hnone hi

theorem Valid.live_le (ht : t.Valid) : t.entries.toList.countP isLive ≤ t.count := by
  rw [ht.count_eq, ← Array.countP_toList]
  refine List.countP_mono_left fun e _ he => ?_
  cases e <;> simp_all [isLive, isUsed]

theorem Valid.resize (ht : t.Valid) {size : Nat} (hroom : t.count ≤ size) :
    Moved size t.entries.toList (t.resize size) := by
  rw [resize_eq]
  have := foldl_moveTo t.entries.toList [] (moved_replicate size)
    (by have := ht.live_le; simp only [List.nil_append]; omega)
    (by simpa using ht.toPlaced.pairwise_apart)
  simpa using this

theorem growCapacity_spec {n : Nat} (h : n = 0 ∨ ∃ m, n = 8 * Nat.pow 2 m) :
    (∃ m, growCapacity n = 8 * Nat.pow 2 m) ∧ 2 * n ≤ growCapacity n ∧ 8 ≤ growCapacity n := by
  unfold growCapacity
  rcases h with rfl | ⟨m, rfl⟩
  · exact ⟨⟨0, rfl⟩, by decide, by decide⟩
  · have hpos : 0 < Nat.pow 2 m := Nat.pow_pos (by omega)
    rw [if_neg (by omega)]
    refine ⟨⟨m + 1, ?_⟩, by omega, by omega⟩
    rw [show Nat.pow 2 (m + 1) = Nat.pow 2 m * 2 from rfl]
    omega

theorem holds_iff_mem : t.Holds k v ↔ Entry.live k v ∈ t.entries.toList := by
  rw [Array.mem_toList_iff, Array.mem_iff_getElem?]
  rfl

theorem Valid.reserve (ht : t.Valid) :
    t.reserve.Valid ∧ 4 * (t.reserve.count + 1) ≤ 3 * t.reserve.entries.size ∧
    ∀ {k v}, t.reserve.Holds k v ↔ t.Holds k v := by
  unfold Table.reserve
  split
  · rename_i hfull
    obtain ⟨hpow, hdouble, height⟩ := growCapacity_spec ht.capacity_eq
    have hroom := ht.room
    have hlive := ht.live_le
    simp only [capacity] at hfull ⊢
    have hm : Moved (growCapacity t.entries.size) t.entries.toList
      (t.resize (growCapacity t.entries.size)) :=
      ht.resize (by omega)
    have hcount := hm.count_live
    have hsize := hm.size_eq
    refine ⟨⟨hm.toPlaced, Or.inr (by rw [hsize]; exact hpow), hm.count_eq, by omega⟩, by omega,
      fun {k v} => ?_⟩
    rw [hm.holds, holds_iff_mem]
  · rename_i hfull
    simp only [capacity] at hfull
    exact ⟨ht, by omega, Iff.rfl⟩

/-! ## Storing and removing -/

theorem Knows.of_holds {u : Table α} (h : t.Knows key)
    (hu : ∀ {k v}, u.Holds k v → ∃ v', t.Holds k v') : u.Knows key := fun k v hk href => by
  obtain ⟨v', hk'⟩ := hu hk
  exact h k v' hk' href

theorem set_eq (t : Table α) (key : Symbol) (v : α) : t.set key v =
    (match t.reserve.entries[findSlot t.reserve.entries key]? with
      | some (.live ..) => (false, ⟨t.reserve.count,
        t.reserve.entries.setIfInBounds (findSlot t.reserve.entries key) (.live key v)⟩)
      | some .tombstone => (true, ⟨t.reserve.count,
        t.reserve.entries.setIfInBounds (findSlot t.reserve.entries key) (.live key v)⟩)
      | _ => (true, ⟨t.reserve.count + 1,
        t.reserve.entries.setIfInBounds (findSlot t.reserve.entries key) (.live key v)⟩)) := rfl

/-- **Storing**: the key has the value, the others have what they had, and the flag says whether the
key is new. -/
theorem Valid.set_spec (ht : t.Valid) (hknows : t.Knows key) (w : α) : (t.set key w).2.Valid ∧
      (∀ {k v}, (t.set key w).2.Holds k v ↔ k = key ∧ v = w ∨ k.ref ≠ key.ref ∧ t.Holds k v) ∧
      ((t.set key w).1 = true ↔ ∀ v, ¬ t.Holds key v) := by
  obtain ⟨hr, hroom, hholds⟩ := ht.reserve
  have hknows' : t.reserve.Knows key := hknows.of_holds fun h => ⟨_, hholds.1 h⟩
  have hlt : t.reserve.entries.countP isUsed < t.reserve.entries.size := by
    rw [← hr.count_eq]
    omega
  obtain ⟨i0, hi0⟩ := Table.exists_empty hlt
  have hs := hr.toPlaced.slotFor hi0 fun hk href => hknows' _ _ ⟨_, hk⟩ href
  have hput : ∀ n {k v},
    Holds ⟨n, t.reserve.entries.setIfInBounds (findSlot t.reserve.entries key) (.live key w)⟩
      k v ↔ k = key ∧ v = w ∨ k.ref ≠ key.ref ∧ t.Holds k v := fun n {k v} => by
    rw [hs.holds_put (m := t.reserve.count), hholds]
  obtain ⟨e, he⟩ : ∃ e, t.reserve.entries[findSlot t.reserve.entries key]? = some e :=
    ⟨_, Array.getElem?_eq_getElem hs.lt⟩
  have hvalid : ∀ n, n = t.reserve.count + (if isUsed e then 0 else 1) →
      Valid ⟨n, t.reserve.entries.setIfInBounds (findSlot t.reserve.entries key) (.live key w)⟩ := by
    rintro n rfl
    refine ⟨hr.toPlaced.put hs w, by simpa using hr.capacity_eq, ?_, ?_⟩
    · rw [countP_setIfInBounds he rfl, ← hr.count_eq]
    · simp only [Array.size_setIfInBounds]
      split <;> omega
  have hdead : isLive e = false → ∀ v, ¬ t.Holds key v := by
    intro hdead v hv
    obtain ⟨i, hi⟩ := hholds.2 hv
    exact hs.absent he hdead hi rfl
  rw [set_eq, he]
  cases e with
  | empty =>
    exact ⟨hvalid _ (by simp [isUsed]), hput _, iff_of_true rfl (hdead rfl)⟩
  | tombstone =>
    exact ⟨hvalid _ (by simp [isUsed]), hput _, iff_of_true rfl (hdead rfl)⟩
  | live k v =>
    refine ⟨hvalid _ (by simp [isUsed]), hput _, iff_of_false (by simp) fun h => ?_⟩
    obtain rfl := hknows' k v ⟨_, he⟩ (hs.own he)
    exact h v (hholds.1 ⟨_, he⟩)

theorem liveAt_bury (keep : Symbol → Bool) :
    LiveAt (es.map (buryUnless keep)) i k v ↔ keep k = true ∧ LiveAt es i k v := by
  simp only [LiveAt, Array.getElem?_map, Option.map_eq_some_iff]
  constructor
  · rintro ⟨e, he, heq⟩
    cases e with
    | live k' v' =>
      simp only [buryUnless] at heq
      split at heq
      · rename_i hkeep
        cases heq
        exact ⟨hkeep, he⟩
      · cases heq
    | _ => cases heq
  · rintro ⟨hkeep, hi⟩
    exact ⟨_, hi, by simp [buryUnless, hkeep]⟩

theorem isUsed_buryUnless (keep : Symbol → Bool) (e : Entry α) :
    isUsed (buryUnless keep e) = isUsed e := by
  cases e with
  | live k v => simp only [buryUnless]; split <;> rfl
  | _ => rfl

theorem Placed.bury (hp : Placed es) (keep : Symbol → Bool) : Placed (es.map (buryUnless keep)) where
  unique h h' href := hp.unique ((liveAt_bury keep).1 h).2 ((liveAt_bury keep).1 h').2 href
  met h := (hp.met ((liveAt_bury keep).1 h).2).of_used (by simp) fun _ e he hused =>
    ⟨buryUnless keep e, by simp [he], (isUsed_buryUnless keep e).trans hused⟩

theorem Valid.bury (ht : t.Valid) (keep : Symbol → Bool) :
    Valid { t with entries := t.entries.map (buryUnless keep) } where
  toPlaced := ht.toPlaced.bury keep
  capacity_eq := by simpa using ht.capacity_eq
  count_eq := by
    rw [Array.countP_map, ht.count_eq]
    congr 1
    funext e
    exact (isUsed_buryUnless keep e).symm
  room := by simpa using ht.room

theorem holds_bury (keep : Symbol → Bool) {n : Nat} :
    Holds ⟨n, es.map (buryUnless keep)⟩ k v ↔ keep k = true ∧ Holds ⟨n, es⟩ k v := by
  simp only [Holds, liveAt_bury, exists_and_left]

/-- Counts one more entry if it goes. -/
def countDropped (keep : Symbol → Bool) (n : Nat) (e : Entry α) : Nat :=
  match e with
  | .live key _ => if keep key then n else n + 1
  | _ => n

/-- The key and value of a live entry. -/
def pair? : Entry α → Option (Symbol × α)
  | .live key value => some (key, value)
  | _ => none

theorem entriesList_eq (t : Table α) : t.entriesList = t.entries.toList.filterMap pair? := by
  refine congrArg (fun f => List.filterMap f t.entries.toList) (funext fun e => ?_)
  cases e <;> rfl

theorem foldl_countDropped (keep : Symbol → Bool) (l : List (Entry α)) (n : Nat) :
    l.foldl (countDropped keep) n = n + (l.filterMap pair?).countP fun e => !keep e.1 := by
  induction l generalizing n with
  | nil => rfl
  | cons e l ih =>
    rw [List.foldl_cons, ih]
    cases e with
    | live k v =>
      cases hk : keep k with
      | true => simp [countDropped, pair?, hk]
      | false =>
        simp [countDropped, pair?, hk]
        omega
    | _ => rfl

theorem removeUnless_eq (t : Table α) (keep : Symbol → Bool) : t.removeUnless keep =
    if (t.entriesList.countP (fun e => !keep e.1) == 0) = true then (0, t)
    else (t.entriesList.countP fun e =>
      !keep e.1, { t with entries := t.entries.map (buryUnless keep) }) := by
  rw [entriesList_eq, ← Nat.zero_add (List.countP ..), ← foldl_countDropped, Array.foldl_toList]
  rfl

/-- **Dropping keys**: what is left is what was there under the keys that are kept. -/
theorem Valid.removeUnless_spec (ht : t.Valid) (keep : Symbol → Bool) : (t.removeUnless keep).2.Valid ∧
      ∀ {k v}, (t.removeUnless keep).2.Holds k v ↔ keep k = true ∧ t.Holds k v := by
  rw [removeUnless_eq]
  split
  · rename_i hnone
    refine ⟨ht, fun {k v} => ⟨fun h => ⟨?_, h⟩, fun h => h.2⟩⟩
    simpa using List.countP_eq_zero.1 (eq_of_beq hnone) (k, v) (mem_entriesList.2 h)
  · exact ⟨ht.bury keep, holds_bury keep⟩

theorem liveAt_erase (hi : i < es.size) :
    LiveAt (es.setIfInBounds i .tombstone) j k v ↔ j ≠ i ∧ LiveAt es j k v := by
  rw [LiveAt, Array.getElem?_setIfInBounds]
  by_cases h : i = j
  · subst h
    simp [hi]
  · rw [if_neg h]
    simp [Ne.symm h]

/-- **Removing** a key. -/
theorem Valid.erase_spec (ht : t.Valid) (hknows : t.Knows key) :
    (t.erase key).2.Valid ∧ (∀ {k v}, (t.erase key).2.Holds k v ↔ k.ref ≠ key.ref ∧ t.Holds k v) ∧
      ((t.erase key).1 = true ↔ ∃ v, t.Holds key v) := by
  by_cases h0 : t.count = 0
  · have hnone : ∀ {k v}, ¬ t.Holds k v := fun h => ht.count_ne_zero h h0
    simp only [erase, h0, beq_self_eq_true, if_true]
    exact ⟨ht, by simp [hnone], by simp [hnone]⟩
  obtain ⟨i0, hi0⟩ := ht.exists_empty h0
  have hs := ht.toPlaced.slotFor hi0 fun hk href => hknows _ _ ⟨_, hk⟩ href
  have herase : t.erase key = _ := if_neg (by simpa using h0)
  dsimp only at herase
  obtain ⟨e, he⟩ : ∃ e, t.entries[findSlot t.entries key]? = some e :=
    ⟨_, Array.getElem?_eq_getElem hs.lt⟩
  have hgone : isLive e = false → ∀ {k v}, t.Holds k v → k.ref ≠ key.ref := fun hdead _ _ h =>
    h.elim fun _ hi => hs.absent he hdead hi
  rw [herase, he]
  cases e with
  | live k v =>
    have hvalid :
        Valid { t with
        entries := t.entries.setIfInBounds (findSlot t.entries key) .tombstone } := by
      refine ⟨⟨fun h h' href => ?_, fun h => ?_⟩, by simpa using ht.capacity_eq,
        ?_, by simpa using ht.room⟩
      · exact ht.unique ((liveAt_erase hs.lt).1 h).2 ((liveAt_erase hs.lt).1 h').2 href
      · exact (ht.met ((liveAt_erase hs.lt).1 h).2).setIfInBounds rfl
      · simp only
        rw [countP_setIfInBounds he rfl, ht.count_eq]
        rfl
    refine ⟨hvalid, fun {k' v'} => ⟨?_, ?_⟩, ?_⟩
    · rintro ⟨j, hj⟩
      obtain ⟨hne, hj⟩ := (liveAt_erase hs.lt).1 hj
      exact ⟨fun href => hne (hs.only hj href), j, hj⟩
    · rintro ⟨hne, j, hj⟩
      refine ⟨j, (liveAt_erase hs.lt).2 ⟨?_, hj⟩⟩
      rintro rfl
      exact hne (hs.own hj)
    · obtain rfl := hknows k v ⟨_, he⟩ (hs.own he)
      exact iff_of_true rfl ⟨v, _, he⟩
  | _ =>
    exact ⟨ht, ⟨fun h => ⟨hgone rfl h, h⟩, fun h => h.2⟩, iff_of_false (by simp) fun h =>
      h.elim fun v hv => hgone rfl hv rfl⟩

/-! ## Searching by text -/

/-- The search for a text from slot `index` on ends with `r`. -/
inductive EndsText (es : Array (Entry α)) (text : String) (hash : UInt32) :
    (index : Nat) → (r : Option Symbol) → Prop
  | found {i : Nat} {k : Symbol} {v : α} : es[i]? = some (.live k v) → k.hash = hash → k.text = text →
      EndsText es text hash i (some k)
  | pass {i : Nat} {r : Option Symbol} {k : Symbol} {v : α} : es[i]? = some (.live k v) →
      ¬ (k.hash = hash ∧ k.text = text) → EndsText es text hash ((i + 1) % es.size) r →
      EndsText es text hash i r
  | bury {i : Nat} {r : Option Symbol} : es[i]? = some .tombstone →
      EndsText es text hash ((i + 1) % es.size) r → EndsText es text hash i r
  | stop {i : Nat} : es[i]? = some .empty → EndsText es text hash i none

theorem probeText?_ends {text : String} (hempty : es[i]? = some Entry.empty) (fuel j : Nat)
    (hfuel : j + fuel = es.size) (hon : GoesOn es hash j) :
    EndsText es text hash (spot es hash j) (probeText? es text hash fuel (spot es hash j)) := by
  induction fuel generalizing j with
  | zero => exact (GoesOn.not_empty (by rw [← hfuel]; exact hon) hempty).elim
  | succ fuel ih =>
    have hlt : spot es hash j < es.size := spot_lt (by omega) hash j
    obtain ⟨e, he⟩ : ∃ e, es[spot es hash j]? = some e := ⟨_, Array.getElem?_eq_getElem hlt⟩
    rw [probeText?, he]
    cases e with
    | empty => exact .stop he
    | tombstone =>
      refine .bury he ?_
      dsimp only
      rw [spot_succ]
      exact ih (j + 1) (by omega) (hon.succ he rfl)
    | live k v =>
      dsimp only
      split
      · rename_i hk
        simp only [Bool.and_eq_true, beq_iff_eq] at hk
        exact .found he hk.1 hk.2
      · rename_i hk
        refine .pass he (by simpa using hk) ?_
        rw [spot_succ]
        exact ih (j + 1) (by omega) (hon.succ he rfl)

theorem EndsText.result {text : String} {r : Option Symbol} (h : EndsText es text hash i r)
    (hi : i = spot es hash j)
    (hpass : ∀ j' < j, ∀ k v, LiveAt es (spot es hash j') k v → ¬ (k.hash = hash ∧ k.text = text)) :
    (∃ k v i, r = some k ∧ LiveAt es i k v ∧ k.text = text) ∨
    (r = none ∧ ∃ m, es[spot es hash m]? = some .empty ∧
      ∀ j' < m, ∀ k v, LiveAt es (spot es hash j') k v → ¬ (k.hash = hash ∧ k.text = text)) := by
  induction h generalizing j with subst hi
  | found he _ htext => exact .inl ⟨_, _, _, rfl, he, htext⟩
  | pass he hk _ ih =>
    refine ih (spot_succ ..) fun j' hj' k' v' hk' => ?_
    rcases Nat.lt_succ_iff_lt_or_eq.1 hj' with hj' | rfl
    · exact hpass j' hj' k' v' hk'
    · cases he.symm.trans hk'
      exact hk
  | bury he _ ih =>
    refine ih (spot_succ ..) fun j' hj' k' v' hk' => ?_
    rcases Nat.lt_succ_iff_lt_or_eq.1 hj' with hj' | rfl
    · exact hpass j' hj' k' v' hk'
    · cases he.symm.trans hk'
  | stop he => exact .inr ⟨rfl, j, he, hpass⟩

/-- **A text is found exactly if it is that of a key.** Keys bear the hashes of their texts. -/
theorem Valid.findText?_eq_some_iff (ht : t.Valid) {text : String}
    (hhash : ∀ {k v}, t.Holds k v → k.hash = hashText k.text)
    (htext : ∀ {k v k' v'}, t.Holds k v → t.Holds k' v' → k.text = k'.text → k = k') :
    t.findText? text (hashText text) = some k ↔ k.text = text ∧ ∃ v, t.Holds k v := by
  by_cases h0 : t.count = 0
  · simp only [findText?, h0, beq_self_eq_true, if_true, reduceCtorEq, false_iff]
    exact fun ⟨_, v, hv⟩ => ht.count_ne_zero hv h0
  obtain ⟨i0, hi0⟩ := ht.exists_empty h0
  have hfind : t.findText? text (hashText text) =
      probeText? t.entries text (hashText text) t.entries.size (spot t.entries (hashText text) 0) := by
    simp only [findText?, beq_iff_eq, h0, if_false]
    rfl
  rw [hfind]
  have hends :=
    @probeText?_ends _ _ _ (hashText text) text hi0 t.entries.size 0 (by omega) fun _ h => by omega
  rcases hends.result rfl fun _ h => by omega with ⟨k', v', i, heq, hk', hkt⟩ | ⟨heq, m, hempty, hpass⟩
  · rw [heq, Option.some.injEq]
    constructor
    · rintro rfl
      exact ⟨hkt, v', i, hk'⟩
    · rintro ⟨hkt', v, hv⟩
      exact htext ⟨i, hk'⟩ hv (hkt.trans hkt'.symm)
  · rw [heq]
    constructor
    · simp
    · rintro ⟨rfl, v, i, hi⟩
      -- the search for the text is the search for its key, which would have come to it
      rw [← hhash ⟨_, hi⟩] at hempty hpass
      obtain ⟨j, hj, rfl⟩ := (ht.met hi).before hi hempty
      exact (hpass j hj k v hi ⟨rfl, rfl⟩).elim

end Parlance.Table
