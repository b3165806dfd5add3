/-
  How large a table grows.

  A tombstone counts as load until its slot is used again or the table grows.
-/
import Parlance.Proofs.Table.FiniteMap

namespace Parlance

namespace Table

variable {α : Type} {t : Table α} {key : Symbol}

theorem size_eq_countP (t : Table α) : t.size = t.entries.countP isLive := by
  rw [size_eq, List.length_map, entriesList_eq, List.length_filterMap_eq_countP, ← Array.countP_toList]
  refine List.countP_congr fun e _ => ?_
  cases e <;> simp [pair?, isLive]

/-- A slot in use has a key or a tombstone. -/
theorem Valid.count_eq_size (ht : t.Valid) : t.count = t.size + t.entries.countP isTombstone := by
  rw [ht.count_eq, countP_isUsed, size_eq_countP]

theorem countP_isTombstone_put (es : Array (Entry α)) (i : Nat) (key : Symbol) (v : α) :
    (es.setIfInBounds i (.live key v)).countP isTombstone ≤ es.countP isTombstone := by
  by_cases hi : i < es.size
  · rw [Array.setIfInBounds_def, dif_pos hi, Array.countP_set hi]
    simp [isTombstone]
  · rw [Array.setIfInBounds_eq_of_size_le (Nat.le_of_not_lt hi)]

theorem entries_set (t : Table α) (key : Symbol) (v : α) : (t.set key v).2.entries =
    t.reserve.entries.setIfInBounds (findSlot t.reserve.entries key) (.live key v) := by
  rw [set_eq]
  split <;> rfl

theorem erase_keeps (t : Table α) (key : Symbol) :
    (t.erase key).2.count = t.count ∧ (t.erase key).2.capacity = t.capacity := by
  unfold erase
  split
  · exact ⟨rfl, rfl⟩
  · dsimp only
    split
    · exact ⟨rfl, Array.size_setIfInBounds⟩
    · exact ⟨rfl, rfl⟩

theorem removeUnless_keeps (t : Table α) (keep : Symbol → Bool) :
    (t.removeUnless keep).2.count = t.count ∧ (t.removeUnless keep).2.capacity = t.capacity := by
  rw [removeUnless_eq]
  split
  · exact ⟨rfl, rfl⟩
  · exact ⟨rfl, Array.size_map⟩

/-- A table that has grown has no tombstones, and it grew because of the slots in use. -/
theorem Valid.grown (ht : t.Valid) (hfull : 3 * t.capacity < 4 * (t.count + 1)) :
    t.reserve.entries.countP isTombstone = 0 ∧ t.capacity < t.reserve.capacity ∧
      t.reserve.capacity ≤ max 8 (4 * t.count) := by
  obtain ⟨-, hdouble, height⟩ := growCapacity_spec ht.capacity_eq
  have hroom := ht.room
  have hmoved : Moved (growCapacity t.capacity) t.entries.toList t.reserve := by
    rw [Table.reserve, if_pos hfull]
    exact ht.resize (by simp only [capacity]; omega)
  have hsize : t.reserve.capacity = growCapacity t.capacity := hmoved.size_eq
  refine ⟨?_, by simp only [capacity] at *; omega, ?_⟩
  · refine Array.countP_eq_zero.2 fun e he => ?_
    obtain ⟨i, hi⟩ := Array.mem_iff_getElem?.1 he
    cases e with
    | tombstone => exact (hmoved.clean i hi).elim
    | _ => simp [isTombstone]
  · rw [hsize]
    rcases ht.capacity_eq with h | ⟨n, h⟩
    · simp only [capacity, h]
      exact Nat.le_max_left ..
    · have hpos : 0 < Nat.pow 2 n := Nat.pow_pos (by omega)
      simp only [capacity] at hfull ⊢
      rw [growCapacity, if_neg (by omega)]
      omega

instance (t : Table α) (key : Symbol) : Decidable (t.Knows key) :=
  decidable_of_iff (∀ e ∈ t.entriesList, e.1.ref = key.ref → e.1 = key)
    ⟨fun h k v hk => h (k, v) (mem_entriesList.2 hk), fun h e he => h e.1 e.2 (mem_entriesList.1 he)⟩

end Table

/-! ## Sequences of changes -/

/-- A key is stored, a key is removed, or all keys are dropped that are not kept. -/
inductive Change (α : Type) where
  | set (key : Symbol) (value : α)
  | erase (key : Symbol)
  | removeUnless (keep : Symbol → Bool)

/-- A table, and how many keys have gone since its capacity changed last. -/
structure Churn (α : Type) where
  table : Table α := {}
  gone : Nat := 0

variable {α : Type}

namespace Change

def onTable (t : Table α) : Change α → Table α
  | .set key value => (t.set key value).2
  | .erase key => (t.erase key).2
  | .removeUnless keep => (t.removeUnless keep).2

/-- A key of the table with the identity of the changed one is that key. -/
def Fits (t : Table α) : Change α → Prop
  | .set key _ | .erase key => t.Knows key
  | .removeUnless _ => True

instance (t : Table α) : (c : Change α) → Decidable (c.Fits t)
  | .set key _ | .erase key => inferInstanceAs (Decidable (t.Knows key))
  | .removeUnless _ => isTrue trivial

end Change

namespace Churn

def step (s : Churn α) (c : Change α) : Churn α where
  table := c.onTable s.table
  gone := if (c.onTable s.table).capacity = s.table.capacity
    then s.gone + (s.table.size - (c.onTable s.table).size) else 0

/-- Along the changes at most `n` keys are live, and at most `d` go between two changes of the
capacity. -/
def Within (n d : Nat) : Churn α → List (Change α) → Prop
  | _, [] => True
  | s, c :: cs => c.Fits s.table ∧ (s.step c).table.size ≤ n ∧ (s.step c).gone ≤ d ∧
      Within n d (s.step c) cs

instance decidableWithin (n d : Nat) :
    (s : Churn α) → (cs : List (Change α)) → Decidable (Within n d s cs)
  | _, [] => isTrue trivial
  | s, c :: cs =>
    have := decidableWithin n d (s.step c) cs
    inferInstanceAs (Decidable (_ ∧ _ ∧ _ ∧ _))

structure Bounded (n d : Nat) (s : Churn α) : Prop where
  valid : s.table.Valid
  graves : s.table.entries.countP Table.isTombstone ≤ s.gone
  size_le : s.table.size ≤ n
  gone_le : s.gone ≤ d
  capacity_le : s.table.capacity ≤ max 8 (4 * (n + d))

/-- While no slot is taken and none is given back, what goes leaves a tombstone. -/
theorem graves_of_count {s : Churn α} {t : Table α} (hs : s.table.Valid) (ht : t.Valid)
    (hgraves : s.table.entries.countP Table.isTombstone ≤ s.gone) (hcount : t.count = s.table.count) :
    t.entries.countP Table.isTombstone ≤ s.gone + (s.table.size - t.size) := by
  have h := hs.count_eq_size
  have h' := ht.count_eq_size
  omega

theorem Bounded.step {n d : Nat} {s : Churn α} (hs : s.Bounded n d) {c : Change α}
    (hfits : c.Fits s.table)
    (hsize : (s.step c).table.size ≤ n) (hgone : (s.step c).gone ≤ d) : (s.step c).Bounded n d := by
  have hkeeps : ∀ {t}, t.Valid → t = c.onTable s.table → t.count = s.table.count ∧
    t.capacity = s.table.capacity →
      (s.step c).Bounded n d := by
    rintro t ht rfl ⟨hcount, hcapacity⟩
    refine ⟨ht, ?_, hsize, hgone, ?_⟩
    · rw [Churn.step, if_pos hcapacity]
      exact graves_of_count hs.valid ht hs.graves hcount
    · exact Nat.le_trans (Nat.le_of_eq hcapacity) hs.capacity_le
  cases c with
  | erase key => exact hkeeps (hs.valid.erase_spec hfits).1 rfl (s.table.erase_keeps key)
  | removeUnless keep =>
    exact hkeeps (hs.valid.removeUnless_spec keep).1 rfl (s.table.removeUnless_keeps keep)
  | set key w =>
    have hentries := s.table.entries_set key w
    have hput := Table.countP_isTombstone_put s.table.reserve.entries
      (Table.findSlot s.table.reserve.entries key) key w
    have hcapacity : (s.table.set key w).2.capacity = s.table.reserve.capacity := by
      rw [Table.capacity, hentries, Array.size_setIfInBounds, Table.capacity]
    refine ⟨(hs.valid.set_spec hfits w).1, ?_, hsize, hgone, ?_⟩
    · show (s.table.set key w).2.entries.countP _ ≤ if (s.table.set key w).2.capacity =
        s.table.capacity then _ else _
      rw [hentries, hcapacity]
      by_cases hfull : 3 * s.table.capacity < 4 * (s.table.count + 1)
      · have hnone := (hs.valid.grown hfull).1
        omega
      · have hsame : s.table.reserve = s.table := if_neg hfull
        rw [hsame, if_pos rfl]
        have hgraves := hs.graves
        rw [hsame] at hput
        omega
    · show (s.table.set key w).2.capacity ≤ _
      rw [hcapacity]
      by_cases hfull : 3 * s.table.capacity < 4 * (s.table.count + 1)
      · have hle := (hs.valid.grown hfull).2.2
        have hcount := hs.valid.count_eq_size
        have := hs.graves
        have := hs.size_le
        have := hs.gone_le
        omega
      · rw [show s.table.reserve = s.table from if_neg hfull]
        exact hs.capacity_le

theorem Bounded.run {n d : Nat} {s : Churn α} (hs : s.Bounded n d) {cs done : List (Change α)}
    (h : Within n d s cs) (hdone : done <+: cs) : (done.foldl Churn.step s).Bounded n d := by
  induction done generalizing s cs with
  | nil => exact hs
  | cons c done ih =>
    obtain ⟨rest, rfl⟩ := hdone
    obtain ⟨hfits, hsize, hgone, hrest⟩ := h
    exact ih (hs.step hfits hsize hgone) hrest ⟨rest, rfl⟩

/-- **The capacity follows the live keys and the tombstones**: if at most `n` keys are live at any
moment, and at most `d` go between two changes of the capacity, the capacity is never more than
eight and four times `n + d`. -/
theorem capacity_le_of_within {n d : Nat} {cs done : List (Change α)} (h : Within n d {} cs)
    (hdone : done <+: cs) : (done.foldl Churn.step {}).table.capacity ≤ max 8 (4 * (n + d)) := by
  have hempty : Bounded n d ({} : Churn α) :=
    ⟨Table.valid_empty, Nat.le_refl _, Nat.zero_le _, Nat.zero_le _, Nat.zero_le _⟩
  exact (hempty.run h hdone).capacity_le

/-- Keys that come and go one after another. -/
def oneByOne : List (Change Unit) :=
  [.set (Operation.interned 0 "a") (), .erase (Operation.interned 0 "a"),
    .set (Operation.interned 1 "b") (), .erase (Operation.interned 1 "b"),
    .set (Operation.interned 2 "c") (), .erase (Operation.interned 2 "c"),
    .set (Operation.interned 3 "d") (), .erase (Operation.interned 3 "d"),
    .set (Operation.interned 4 "e") (), .erase (Operation.interned 4 "e"),
    .set (Operation.interned 5 "f") (), .erase (Operation.interned 5 "f"),
    .set (Operation.interned 6 "g") ()]

theorem capacity_le_oneByOne :
    Within 1 6 {} oneByOne ∧ (oneByOne.foldl Churn.step {}).table.capacity ≤ max 8 (4 * (1 + 6)) :=
  have h : Within 1 6 {} oneByOne := by decide
  ⟨h, capacity_le_of_within h (List.prefix_refl _)⟩

/-- The live keys alone are no bound: one key at a time, and the table grows. -/
theorem churn_grows : (∀ done ∈ oneByOne.inits, (done.foldl Churn.step {}).table.size ≤ 1) ∧
    max 8 (4 * 1) < (oneByOne.foldl Churn.step {}).table.capacity := by
  decide

end Churn

end Parlance
