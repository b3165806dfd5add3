/-
  Tables with the same slots.

  * `Paired.get?`, `Paired.set`, `Paired.erase`: the operations find the same slots in both, as long
    as a key of one table has one partner in the other.
-/
import Parlance.Proofs.Parallel.Heap
import Parlance.Proofs.Table

namespace Parlance

/-- The same kind of entry. -/
inductive Entry.Paired {α α' : Type} (P : Symbol → Symbol → Prop) (R : α → α' → Prop) :
    Entry α → Entry α' → Prop
  | empty : Paired P R .empty .empty
  | tombstone : Paired P R .tombstone .tombstone
  | live {k k' : Symbol} {v : α} {v' : α'} : P k k' → R v v' → Paired P R (.live k v) (.live k' v')

/-- A key has one partner, with the same hash. -/
structure Unmixed (P : Symbol → Symbol → Prop) : Prop where
  ref_iff : ∀ {k k' l l'}, P k k' → P l l' → (k.ref = l.ref ↔ k'.ref = l'.ref)
  hash_eq : ∀ {k k'}, P k k' → k.hash = k'.hash

namespace Table

variable {α α' : Type} {P Q : Symbol → Symbol → Prop} {R S : α → α' → Prop} {t : Table α}
  {t' : Table α'} {es : Array (Entry α)} {es' : Array (Entry α')} {k k' : Symbol} {v : α} {v' : α'}

/-- The same kind of entry in every slot. -/
structure Paired (P : Symbol → Symbol → Prop) (R : α → α' → Prop) (t : Table α) (t' : Table α') :
    Prop where
  count_eq : t.count = t'.count
  entries : List.Forall₂ (Entry.Paired P R) t.entries.toList t'.entries.toList

theorem paired_empty : Paired P R {} {} := ⟨rfl, .nil⟩

theorem Paired.imp (h : t.Paired P R t')
    (himp : ∀ {k k' v v'}, t.Holds k v → t'.Holds k' v' → P k k' → R v v' → Q k k' ∧ S v v') :
    t.Paired Q S t' := by
  refine ⟨h.count_eq, ?_⟩
  have hall : ∀ {l : List (Entry α)} {l' : List (Entry α')}, List.Forall₂ (Entry.Paired P R) l l' →
      (∀ e ∈ l, e ∈ t.entries.toList) → (∀ e ∈ l', e ∈ t'.entries.toList) →
      List.Forall₂ (Entry.Paired Q S) l l' := by
    intro l l' hl
    induction hl with
    | nil => exact fun _ _ => .nil
    | cons he _ ih =>
      intro hmem hmem'
      refine .cons ?_ (ih (fun e he => hmem e (List.mem_cons_of_mem _ he)) fun e he =>
        hmem' e (List.mem_cons_of_mem _ he))
      cases he with
      | empty => exact .empty
      | tombstone => exact .tombstone
      | live hk hv =>
        obtain ⟨hk', hv'⟩ := himp (holds_iff_mem.2 (hmem _ List.mem_cons_self))
          (holds_iff_mem.2 (hmem' _ List.mem_cons_self)) hk hv
        exact .live hk' hv'
  exact hall h.entries (fun _ he => he) fun _ he => he

theorem size_eq_of_entries (h : List.Forall₂ (Entry.Paired P R) es.toList es'.toList) :
    es.size = es'.size := by
  simpa using h.length_eq

theorem rel_entry (h : List.Forall₂ (Entry.Paired P R) es.toList es'.toList) (i : Nat) :
    Option.Rel (Entry.Paired P R) es[i]? es'[i]? := by
  simpa using forall₂_getElem? h i

section Keys

variable (hP : Unmixed P)
include hP

theorem probe_eq (h : List.Forall₂ (Entry.Paired P R) es.toList es'.toList) (hk : P k k')
    (fuel i : Nat) (grave : Option Nat) : probe es k fuel i grave = probe es' k' fuel i grave := by
  induction fuel generalizing i grave with
  | zero => rfl
  | succ fuel ih =>
    have hrel := rel_entry h i
    simp only [probe, size_eq_of_entries h]
    generalize es[i]? = e at hrel
    generalize es'[i]? = e' at hrel
    cases hrel with
    | none => rfl
    | some hrel =>
      cases hrel with
      | empty => rfl
      | tombstone => exact ih _ _
      | live hl _ =>
        have hiff := hP.ref_iff hl hk
        simp only [beq_iff_eq, hiff]
        split
        · rfl
        · exact ih _ _

theorem findSlot_eq (h : List.Forall₂ (Entry.Paired P R) es.toList es'.toList) (hk : P k k') :
    findSlot es k = findSlot es' k' := by
  unfold findSlot home
  rw [probe_eq hP h hk, size_eq_of_entries h, hP.hash_eq hk]

section

variable (h : t.Paired P R t')
include h

theorem Paired.get? (hk : P k k') : Option.Rel R (t.get? k) (t'.get? k') := by
  unfold Table.get?
  rw [h.count_eq, findSlot_eq hP h.entries hk]
  split
  · exact .none
  · have hrel := rel_entry h.entries (findSlot t'.entries k')
    generalize t.entries[findSlot t'.entries k']? = e at hrel
    generalize t'.entries[findSlot t'.entries k']? = e' at hrel
    cases hrel with
    | none => exact .none
    | some hrel =>
      cases hrel with
      | live _ hv => exact .some hv
      | _ => exact .none

theorem Paired.moveTo {e : Entry α} {e' : Entry α'} (he : e.Paired P R e') :
    (t.moveTo e).Paired P R (t'.moveTo e') := by
  cases he with
  | live hk hv =>
    refine ⟨by simp only [Table.moveTo, h.count_eq], ?_⟩
    simp only [Table.moveTo, findSlot_eq hP h.entries hk, Array.toList_setIfInBounds]
    exact forall₂_set h.entries _ (.live hk hv)
  | _ => exact h

theorem Paired.resize (capacity : Nat) : (t.resize capacity).Paired P R (t'.resize capacity) := by
  have hfresh : (⟨0, Array.replicate capacity .empty⟩ : Table α).Paired P R
      ⟨0, Array.replicate capacity .empty⟩ := by
    refine ⟨rfl, ?_⟩
    simp only [Array.toList_replicate]
    induction capacity with
    | zero => exact .nil
    | succ n ih => exact .cons .empty ih
  rw [resize_eq, resize_eq]
  generalize (⟨0, Array.replicate capacity .empty⟩ : Table α) = u at hfresh
  generalize (⟨0, Array.replicate capacity .empty⟩ : Table α') = u' at hfresh
  have hentries := h.entries
  generalize t.entries.toList = l at hentries
  generalize t'.entries.toList = l' at hentries
  induction hentries generalizing u u' with
  | nil => exact hfresh
  | cons he _ ih => exact ih _ _ (hfresh.moveTo hP he)

theorem Paired.reserve : t.reserve.Paired P R t'.reserve := by
  unfold Table.reserve capacity
  rw [h.count_eq, size_eq_of_entries h.entries]
  split
  · exact h.resize hP _
  · exact h

theorem Paired.set (hk : P k k') (hv : R v v') :
    (t.set k v).1 = (t'.set k' v').1 ∧ (t.set k v).2.Paired P R (t'.set k' v').2 := by
  have hr := h.reserve hP
  have hput := forall₂_set hr.entries (findSlot t'.reserve.entries k') (Entry.Paired.live hk hv)
  have hrel := rel_entry hr.entries (findSlot t'.reserve.entries k')
  rw [set_eq, set_eq, findSlot_eq hP hr.entries hk, hr.count_eq]
  simp only [← Array.toList_setIfInBounds] at hput
  generalize t.reserve.entries[findSlot t'.reserve.entries k']? = e at hrel
  generalize t'.reserve.entries[findSlot t'.reserve.entries k']? = e' at hrel
  cases hrel with
  | none => exact ⟨rfl, rfl, hput⟩
  | some hrel => cases hrel <;> exact ⟨rfl, rfl, hput⟩

theorem Paired.erase (hk : P k k') :
    (t.erase k).1 = (t'.erase k').1 ∧ (t.erase k).2.Paired P R (t'.erase k').2 := by
  have hbury :=
    forall₂_set h.entries (findSlot t'.entries k') (Entry.Paired.tombstone (P := P) (R := R))
  have hrel := rel_entry h.entries (findSlot t'.entries k')
  unfold Table.erase
  rw [h.count_eq, findSlot_eq hP h.entries hk]
  simp only [← Array.toList_setIfInBounds] at hbury
  split
  · exact ⟨rfl, h⟩
  · dsimp only
    generalize t.entries[findSlot t'.entries k']? = e at hrel
    generalize t'.entries[findSlot t'.entries k']? = e' at hrel
    cases hrel with
    | none => exact ⟨rfl, h⟩
    | some hrel =>
      cases hrel with
      | live => exact ⟨rfl, rfl, hbury⟩
      | _ => exact ⟨rfl, h⟩

end

end Keys

theorem Paired.entriesList (h : t.Paired P R t') :
    List.Forall₂ (fun e e' => P e.1 e'.1 ∧ R e.2 e'.2) t.entriesList t'.entriesList := by
  unfold Table.entriesList
  have hentries := h.entries
  generalize t.entries.toList = l at hentries
  generalize t'.entries.toList = l' at hentries
  induction hentries with
  | nil => exact .nil
  | cons he _ ih =>
    cases he with
    | live hk hv => exact .cons ⟨hk, hv⟩ ih
    | _ => exact ih

end Table

end Parlance
