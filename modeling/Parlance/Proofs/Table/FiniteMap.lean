/-
  Tables against plain finite maps.

  Searches are bounded in the definition of `findSlot` and `findText?`. `Ends` and `EndsText` are
  the same searches without a bound: that they have a result says that they come to an end.
-/
import Mathlib.Data.List.AList
import Parlance.Proofs.Table

namespace Parlance

/-- Symbols as interned strings are: an identity is that of one text, a text has one identity, and
the hash is the text's. -/
structure Interned (names : Set Symbol) : Prop where
  eq_of_ref : ∀ k ∈ names, ∀ k' ∈ names, k.ref = k'.ref → k = k'
  eq_of_text : ∀ k ∈ names, ∀ k' ∈ names, k.text = k'.text → k = k'
  hash_eq : ∀ k ∈ names, k.hash = hashText k.text

namespace Table

variable {α : Type} {es : Array (Entry α)} {t s : Table α} {key k : Symbol} {v : α}

/-! ## Searches that end -/

/-- Every search for a key ends where `findSlot` says. -/
def Searchable (es : Array (Entry α)) : Prop :=
  ∀ key, Ends es key (home es key.hash) none (findSlot es key)

/-- Every search for a text ends as `probeText?` says. -/
def TextSearchable (es : Array (Entry α)) : Prop :=
  ∀ text hash, EndsText es text hash (home es hash) (probeText? es text hash es.size (home es hash))

theorem searchable_of_empty {i : Nat} (hempty : es[i]? = some Entry.empty) : Searchable es :=
  fun key => probe_ends hempty es.size 0 none (by omega) fun _ h => by omega

theorem textSearchable_of_empty {i : Nat} (hempty : es[i]? = some Entry.empty) : TextSearchable es :=
  fun _ _ => probeText?_ends hempty es.size 0 (by omega) fun _ h => by omega

/-! ## The shape of a table -/

def isTombstone : Entry α → Bool
  | .tombstone => true
  | _ => false

/-- The shape of a table. -/
structure Sturdy (t : Table α) : Prop where
  /-- The capacity is zero or a power of two, eight at least. -/
  capacity_eq : t.capacity = 0 ∨ ∃ n, t.capacity = Nat.pow 2 n ∧ 8 ≤ t.capacity
  count_eq : t.count = t.entries.countP isLive + t.entries.countP isTombstone
  load : 4 * t.count ≤ 3 * t.capacity
  /-- A key stands in one slot. -/
  once : ∀ {i j k k' v v'}, LiveAt t.entries i k v → LiveAt t.entries j k' v' → k.ref = k'.ref → i = j
  /-- Between the home of a key and its slot there is no slot that was never used. -/
  gapless : ∀ {i k v}, LiveAt t.entries i k v → ∃ j < t.capacity,
    i = (home t.entries k.hash + j) % t.capacity ∧
    ∀ j' < j, t.entries[(home t.entries k.hash + j') % t.capacity]? ≠ some .empty
  /-- Searches end: those for a key or a text in the table, those for the slot of a new key, and
  those made while the entries move to a row of twice the size. -/
  search : t.count ≠ 0 → Searchable t.entries ∧ TextSearchable t.entries
  search_reserve : Searchable t.reserve.entries
  search_resize : ∀ done, done <+: t.entries.toList →
    Searchable (done.foldl moveTo ⟨0, Array.replicate (growCapacity t.capacity) .empty⟩).entries

theorem countP_isUsed (es : Array (Entry α)) :
    es.countP isUsed = es.countP isLive + es.countP isTombstone := by
  rw [← Array.countP_toList, ← Array.countP_toList, ← Array.countP_toList]
  induction es.toList with
  | nil => rfl
  | cons e l ih =>
    simp only [List.countP_cons, ih]
    cases e <;> simp [isUsed, isLive, isTombstone] <;> omega

/-- The first entries of a table have moved and a slot is still free. -/
theorem Valid.moving (ht : t.Valid) {done : List (Entry α)} (hdone : done <+: t.entries.toList) :
    ∃ i : Nat, (done.foldl moveTo ⟨0, Array.replicate (growCapacity t.capacity) .empty⟩).entries[i]?
      = some Entry.empty := by
  obtain ⟨rest, hrest⟩ := hdone
  have hroom := ht.room
  obtain ⟨-, hdouble, height⟩ := growCapacity_spec ht.capacity_eq
  have hlive : done.countP isLive ≤ t.count :=
    Nat.le_trans (List.Sublist.countP_le (List.IsPrefix.sublist ⟨rest, hrest⟩)) ht.live_le
  have hapart : done.Pairwise Apart := by
    have := ht.toPlaced.pairwise_apart
    rw [← hrest] at this
    exact (List.pairwise_append.1 this).1
  have hmoved : Moved (growCapacity t.capacity) ([] ++ done)
      (done.foldl moveTo ⟨0, Array.replicate (growCapacity t.capacity) .empty⟩) :=
    foldl_moveTo done [] (moved_replicate _) (by simp only [capacity, List.nil_append]; omega)
      (by simpa using hapart)
  refine Table.exists_empty ?_
  rw [← hmoved.count_eq, hmoved.count_live, hmoved.size_eq, List.nil_append]
  simp only [capacity]
  omega

theorem Valid.sturdy (ht : t.Valid) : t.Sturdy where
  capacity_eq := by
    refine ht.capacity_eq.imp_right fun ⟨n, hn⟩ => ⟨n + 3, ?_, ?_⟩
    · have hpow : Nat.pow 2 (n + 3) = Nat.pow 2 n * 2 * 2 * 2 := rfl
      simp only [capacity]
      omega
    · have hpos : 0 < Nat.pow 2 n := Nat.pow_pos (by omega)
      simp only [capacity]
      omega
  count_eq := ht.count_eq.trans (countP_isUsed t.entries)
  load := ht.room
  once := ht.unique
  gapless hk := by
    obtain ⟨j, hj, rfl, hon⟩ := ht.met hk
    simp only [home, capacity, Nat.mod_add_mod]
    exact ⟨j, hj, rfl, fun j' hj' => hon.not_empty_of_lt hj'⟩
  search hne :=
    have ⟨_, hempty⟩ := ht.exists_empty hne
    ⟨searchable_of_empty hempty, textSearchable_of_empty hempty⟩
  search_reserve := by
    obtain ⟨hr, hroom, -⟩ := ht.reserve
    have hlt : t.reserve.entries.countP isUsed < t.reserve.entries.size := by
      rw [← hr.count_eq]
      omega
    obtain ⟨_, hempty⟩ := Table.exists_empty hlt
    exact searchable_of_empty hempty
  search_resize _ hdone :=
    have ⟨_, hempty⟩ := ht.moving hdone
    searchable_of_empty hempty

/-! ## Tables that stand for maps -/

end Table

/-- A plain finite map: a list of entries whose keys differ. -/
abbrev Plain (α : Type) := AList fun _ : Symbol => α

namespace Plain

variable {α : Type}

/-- The key with the given text. -/
def findText? (m : Plain α) (text : String) : Option Symbol := m.keys.find? (·.text == text)

/-- The entries whose keys are kept. -/
def restrict (m : Plain α) (keep : Symbol → Bool) : Plain α :=
  ⟨m.entries.filter fun e => keep e.1, List.NodupKeys.sublist List.filter_sublist m.nodupKeys⟩

theorem lookup_restrict {m : Plain α} {keep : Symbol → Bool} {k : Symbol} {v : α} :
    (m.restrict keep).lookup k = some v ↔ keep k = true ∧ m.lookup k = some v := by
  have h : ∀ m : Plain α, m.lookup k = some v ↔ ⟨k, v⟩ ∈ m.entries := fun m => AList.mem_lookup_iff
  rw [h, h, restrict, List.mem_filter, and_comm]

theorem mem_iff {m : Plain α} {k : Symbol} : k ∈ m ↔ ∃ v, m.lookup k = some v := by
  rw [← AList.lookup_isSome, Option.isSome_iff_exists]

end Plain

namespace Table

variable {α : Type} {t s : Table α} {m n : Plain α} {names : Set Symbol} {key k : Symbol} {v : α}

/-- The table holds the entries of the map. -/
structure Represents (t : Table α) (m : Plain α) : Prop where
  valid : t.Valid
  holds_iff : ∀ {k v}, t.Holds k v ↔ m.lookup k = some v

theorem Represents.mem (h : t.Represents m) : k ∈ m ↔ ∃ v, t.Holds k v := by
  simp only [Plain.mem_iff, h.holds_iff]

theorem represents_empty : ({} : Table α).Represents ∅ where
  valid := valid_empty
  holds_iff := by simp [Holds, LiveAt]

theorem Represents.knows (h : t.Represents m) (hn : Interned names) (hm : ∀ k ∈ m, k ∈ names)
    (hkey : key ∈ names) : t.Knows key := fun k v hk href =>
  hn.eq_of_ref k (hm k (h.mem.2 ⟨v, hk⟩)) key hkey href

theorem nodup_entriesList (ht : t.Valid) : (t.entriesList.map Prod.fst).Nodup := by
  rw [List.nodup_iff_pairwise_ne, entriesList, List.pairwise_map, List.pairwise_filterMap]
  refine ht.toPlaced.pairwise_apart.imp fun {e e'} hapart => ?_
  rintro b hb b' hb' heq
  cases e with
  | live k v =>
    cases e' with
    | live k' v' =>
      cases hb
      cases hb'
      exact hapart k v k' v' rfl rfl (congrArg Symbol.ref heq)
    | _ => cases hb'
  | _ => cases hb

theorem Represents.keys_perm (h : t.Represents m) : (t.entriesList.map Prod.fst).Perm m.keys := by
  refine (List.perm_ext_iff_of_nodup (nodup_entriesList h.valid) m.keys_nodup).2 fun k => ?_
  rw [← AList.mem_keys, h.mem]
  simp only [List.mem_map, mem_entriesList, Prod.exists, exists_and_right, exists_eq_right]

theorem size_eq (t : Table α) : t.size = (t.entriesList.map Prod.fst).length := by
  have hfold : ∀ (l : List (Entry α)) (n : Nat), l.foldl (fun n e => if isLive e then n + 1 else n) n =
      n + (l.filterMap pair?).length := by
    intro l
    induction l with
    | nil => intro n; rfl
    | cons e l ih =>
      intro n
      rw [List.foldl_cons, ih]
      cases e with
      | live => simp [isLive, pair?]; omega
      | _ => simp [isLive, pair?, List.filterMap_cons]
  rw [size, ← Array.foldl_toList, hfold, List.length_map, entriesList_eq, Nat.zero_add]

theorem removeUnless_fst (t : Table α) (keep : Symbol → Bool) :
    (t.removeUnless keep).1 = (t.entriesList.map Prod.fst).countP fun k => !keep k := by
  rw [removeUnless_eq, List.countP_map]
  split
  · rename_i h
    exact (eq_of_beq h).symm
  · rfl

theorem foldl_set_spec (hn : Interned names) (l : List (Symbol × α)) (ht : t.Valid)
    (hheld : ∀ {k v}, t.Holds k v → k ∈ names) (hl : ∀ e ∈ l, e.1 ∈ names)
    (hnodup : (l.map Prod.fst).Nodup) :
    (l.foldl (fun t e => (t.set e.1 e.2).2) t).Valid ∧ ∀ {k v},
    (l.foldl (fun t e => (t.set e.1 e.2).2) t).Holds k v ↔
        (k, v) ∈ l ∨ k ∉ l.map Prod.fst ∧ t.Holds k v := by
  induction l generalizing t with
  | nil => exact ⟨ht, by simp⟩
  | cons e l ih =>
    obtain ⟨key, w⟩ := e
    have hkey : key ∈ names := hl _ List.mem_cons_self
    obtain ⟨hvalid, hholds, -⟩ := ht.set_spec (fun k v hk => hn.eq_of_ref k (hheld hk) key hkey) w
    have hheld' : ∀ {k v}, (t.set key w).2.Holds k v → k ∈ names := fun {k v} hk => by
      rcases hholds.1 hk with ⟨rfl, -⟩ | ⟨-, hk⟩
      · exact hkey
      · exact hheld hk
    obtain ⟨hnew, hnodup'⟩ := List.nodup_cons.1 hnodup
    obtain ⟨hv, hh⟩ := ih hvalid hheld' (fun e he => hl e (List.mem_cons_of_mem _ he)) hnodup'
    refine ⟨hv, fun {k v} => ?_⟩
    rw [List.foldl_cons, hh, hholds, List.map_cons, List.mem_cons, List.mem_cons, Prod.mk.injEq]
    constructor
    · rintro (hmem | ⟨hnot, ⟨rfl, rfl⟩ | ⟨hne, hk⟩⟩)
      · exact Or.inl (Or.inr hmem)
      · exact Or.inl (Or.inl ⟨rfl, rfl⟩)
      · refine Or.inr ⟨?_, hk⟩
        rintro (rfl | hmem)
        · exact hne rfl
        · exact hnot hmem
    · rintro ((⟨rfl, rfl⟩ | hmem) | ⟨hnot, hk⟩)
      · exact Or.inr ⟨hnew, Or.inl ⟨rfl, rfl⟩⟩
      · exact Or.inl hmem
      · refine Or.inr ⟨fun hmem => hnot (Or.inr hmem), Or.inr ⟨fun href => ?_, hk⟩⟩
        exact hnot (Or.inl (hn.eq_of_ref k (hheld hk) key hkey href))

section Represents

variable (hn : Interned names) (hm : ∀ k ∈ m, k ∈ names)
include hn hm

theorem Represents.get? (h : t.Represents m) (hkey : key ∈ names) : t.get? key = m.lookup key := by
  have hknows := h.knows hn hm hkey
  refine Option.ext fun v => ?_
  rw [h.valid.get?_eq_some_iff hknows, h.holds_iff]

theorem Represents.set (h : t.Represents m) (hkey : key ∈ names) (w : α) :
    (t.set key w).1 = (m.lookup key).isNone ∧ (t.set key w).2.Represents (m.insert key w) := by
  obtain ⟨hvalid, hholds, hflag⟩ := h.valid.set_spec (h.knows hn hm hkey) w
  refine ⟨?_, hvalid, fun {k v} => ?_⟩
  · rw [Bool.eq_iff_iff, hflag, Option.isNone_iff_eq_none]
    simp only [h.holds_iff]
    exact ⟨fun hno => Option.eq_none_iff_forall_ne_some.2 hno, fun hno v hv => by simp [hno] at hv⟩
  · rw [hholds, h.holds_iff]
    by_cases heq : k = key
    · subst heq
      rw [AList.lookup_insert]
      simp [eq_comm]
    · rw [AList.lookup_insert_ne heq]
      constructor
      · rintro (⟨rfl, -⟩ | ⟨-, hk⟩)
        · exact (heq rfl).elim
        · exact hk
      · intro hk
        refine Or.inr ⟨fun href => heq ?_, hk⟩
        exact hn.eq_of_ref k (hm k (Plain.mem_iff.2 ⟨v, hk⟩)) key hkey href

theorem Represents.erase (h : t.Represents m) (hkey : key ∈ names) :
    (t.erase key).1 = (m.lookup key).isSome ∧ (t.erase key).2.Represents (m.erase key) := by
  obtain ⟨hvalid, hholds, hflag⟩ := h.valid.erase_spec (h.knows hn hm hkey)
  refine ⟨?_, hvalid, fun {k v} => ?_⟩
  · rw [Bool.eq_iff_iff, hflag, Option.isSome_iff_exists]
    simp only [h.holds_iff]
  · rw [hholds, h.holds_iff]
    by_cases heq : k = key
    · subst heq
      simp [AList.lookup_erase]
    · rw [AList.lookup_erase_ne heq]
      refine ⟨fun hk => hk.2, fun hk => ⟨fun href => heq ?_, hk⟩⟩
      exact hn.eq_of_ref k (hm k (Plain.mem_iff.2 ⟨v, hk⟩)) key hkey href

theorem Represents.addAll (h : t.Represents m) (hs : s.Represents n) (hsn : ∀ k ∈ n, k ∈ names) :
    (t.addAll s).Represents (n ∪ m) := by
  obtain ⟨hvalid, hholds⟩ :=
    foldl_set_spec hn s.entriesList h.valid (fun {k v} hk => hm k (h.mem.2 ⟨v, hk⟩))
    (fun e he => hsn e.1 (hs.mem.2 ⟨e.2, mem_entriesList.1 he⟩)) (nodup_entriesList hs.valid)
  refine ⟨hvalid, fun {k v} => ?_⟩
  rw [Table.addAll, hholds, mem_entriesList, hs.holds_iff, h.holds_iff, hs.keys_perm.mem_iff,
    ← AList.mem_keys]
  exact AList.lookup_union_eq_some.symm

theorem Represents.findText? (h : t.Represents m) (text : String) :
    t.findText? text (hashText text) = Plain.findText? m text := by
  have hname : ∀ {k v}, t.Holds k v → k ∈ names := fun {k v} hk => hm k (h.mem.2 ⟨v, hk⟩)
  have hfind : ∀ k, t.findText? text (hashText text) = some k ↔ k.text = text ∧ k ∈ m := fun k => by
    rw [h.mem]
    exact h.valid.findText?_eq_some_iff (fun hk => hn.hash_eq _ (hname hk))
      fun hk hk' htext => hn.eq_of_text _ (hname hk) _ (hname hk') htext
  cases hplain : Plain.findText? m text with
  | some k =>
    refine (hfind k).2 ⟨?_, AList.mem_keys.2 (List.mem_of_find?_eq_some hplain)⟩
    simpa using List.find?_some hplain
  | none =>
    refine Option.eq_none_iff_forall_ne_some.2 fun k hk => ?_
    obtain ⟨htext, hmem⟩ := (hfind k).1 hk
    exact List.find?_eq_none.1 hplain k (AList.mem_keys.1 hmem) (by simpa using htext)

end Represents

theorem Represents.removeUnless (h : t.Represents m) (keep : Symbol → Bool) :
    (t.removeUnless keep).1 = m.keys.countP (fun k => !keep k) ∧
    (t.removeUnless keep).2.Represents (m.restrict keep) := by
  obtain ⟨hvalid, hholds⟩ := h.valid.removeUnless_spec keep
  refine ⟨?_, hvalid, fun {k v} => ?_⟩
  · rw [removeUnless_fst, h.keys_perm.countP_eq]
  · rw [hholds, h.holds_iff, Plain.lookup_restrict]

theorem Represents.size (h : t.Represents m) : t.size = m.keys.length := by
  rw [size_eq, h.keys_perm.length_eq]

end Table

/-! ## Sequences of operations -/

/-- What can be asked of a family of tables. -/
inductive Operation (ι α : Type) where
  | set (i : ι) (key : Symbol) (value : α)
  | get (i : ι) (key : Symbol)
  | erase (i : ι) (key : Symbol)
  | addAll (i source : ι)
  | findText (i : ι) (text : String)
  | removeUnless (i : ι) (keep : Symbol → Bool)
  | size (i : ι)

/-- What comes back. -/
inductive Answer (α : Type) where
  | done
  | flag (b : Bool)
  | value (v : Option α)
  | symbol (k : Option Symbol)
  | number (n : Nat)
  deriving DecidableEq

namespace Operation

variable {ι α : Type} [DecidableEq ι]

def onTables (ts : ι → Table α) : Operation ι α → Answer α × (ι → Table α)
  | .set i key value => (.flag ((ts i).set key value).1, Function.update ts i ((ts i).set key value).2)
  | .get i key => (.value ((ts i).get? key), ts)
  | .erase i key => (.flag ((ts i).erase key).1, Function.update ts i ((ts i).erase key).2)
  | .addAll i source => (.done, Function.update ts i ((ts i).addAll (ts source)))
  | .findText i text => (.symbol ((ts i).findText? text (hashText text)), ts)
  | .removeUnless i keep =>
    (.number ((ts i).removeUnless keep).1, Function.update ts i ((ts i).removeUnless keep).2)
  | .size i => (.number (ts i).size, ts)

def onMaps (ms : ι → Plain α) : Operation ι α → Answer α × (ι → Plain α)
  | .set i key value =>
      (.flag ((ms i).lookup key).isNone, Function.update ms i ((ms i).insert key value))
  | .get i key => (.value ((ms i).lookup key), ms)
  | .erase i key => (.flag ((ms i).lookup key).isSome, Function.update ms i ((ms i).erase key))
  | .addAll i source => (.done, Function.update ms i (ms source ∪ ms i))
  | .findText i text => (.symbol (Plain.findText? (ms i) text), ms)
  | .removeUnless i keep =>
    (.number ((ms i).keys.countP fun k => !keep k), Function.update ms i (Plain.restrict (ms i) keep))
  | .size i => (.number (ms i).keys.length, ms)

/-- The key that the operation names. -/
def key? : Operation ι α → Option Symbol
  | .set _ key _ | .get _ key | .erase _ key => some key
  | _ => none

/-- One answer for each operation, and the tables at the end. -/
def runTables (ts : ι → Table α) : List (Operation ι α) → List (Answer α) × (ι → Table α)
  | [] => ([], ts)
  | op :: ops =>
    let (answer, ts) := op.onTables ts
    let (answers, ts) := runTables ts ops
    (answer :: answers, ts)

def runMaps (ms : ι → Plain α) : List (Operation ι α) → List (Answer α) × (ι → Plain α)
  | [] => ([], ms)
  | op :: ops =>
    let (answer, ms) := op.onMaps ms
    let (answers, ms) := runMaps ms ops
    (answer :: answers, ms)

/-- The symbols about when the operation is asked: the keys of all the maps, and its own. -/
def names (ms : ι → Plain α) (op : Operation ι α) : Set Symbol :=
  {k | (∃ i, k ∈ ms i) ∨ op.key? = some k}

/-- Whenever an operation is asked, the symbols about are interned strings. A string that has left
all the maps may come back under another identity. -/
def Keyed (ms : ι → Plain α) : List (Operation ι α) → Prop
  | [] => True
  | op :: ops => Interned (op.names ms) ∧ Keyed (op.onMaps ms).2 ops

variable {ts : ι → Table α} {ms : ι → Plain α}

theorem represents_update (h : ∀ i, (ts i).Represents (ms i)) {i : ι} {t : Table α} {m : Plain α}
    (ht : t.Represents m) (j : ι) :
    (Function.update ts i t j).Represents (Function.update ms i m j) := by
  by_cases hj : j = i
  · subst hj
    simpa using ht
  · simpa [Function.update_of_ne hj] using h j

theorem onTables_spec (op : Operation ι α) (h : ∀ i, (ts i).Represents (ms i))
    (hn : Interned (op.names ms)) :
    (op.onTables ts).1 = (op.onMaps ms).1 ∧
      ∀ i, ((op.onTables ts).2 i).Represents ((op.onMaps ms).2 i) := by
  have hm : ∀ i, ∀ k ∈ ms i, k ∈ op.names ms := fun i k hk => Or.inl ⟨i, hk⟩
  cases op with
  | set i key value =>
    obtain ⟨hflag, hset⟩ := (h i).set hn (hm i) (Or.inr rfl) value
    exact ⟨congrArg Answer.flag hflag, represents_update h hset⟩
  | get i key => exact ⟨congrArg Answer.value ((h i).get? hn (hm i) (Or.inr rfl)), h⟩
  | erase i key =>
    obtain ⟨hflag, herase⟩ := (h i).erase hn (hm i) (Or.inr rfl)
    exact ⟨congrArg Answer.flag hflag, represents_update h herase⟩
  | addAll i source => exact ⟨rfl, represents_update h ((h i).addAll hn (hm i) (h source) (hm source))⟩
  | findText i text => exact ⟨congrArg Answer.symbol ((h i).findText? hn (hm i) text), h⟩
  | removeUnless i keep =>
    obtain ⟨hcount, hkept⟩ := (h i).removeUnless keep
    exact ⟨congrArg Answer.number hcount, represents_update h hkept⟩
  | size i => exact ⟨congrArg Answer.number (h i).size, h⟩

theorem runTables_spec (ops : List (Operation ι α)) (h : ∀ i, (ts i).Represents (ms i))
    (hk : Keyed ms ops) :
    (runTables ts ops).1 = (runMaps ms ops).1 ∧
      ∀ i, ((runTables ts ops).2 i).Represents ((runMaps ms ops).2 i) := by
  induction ops generalizing ts ms with
  | nil => exact ⟨rfl, h⟩
  | cons op ops ih =>
    obtain ⟨hn, hk⟩ := hk
    obtain ⟨hanswer, hstep⟩ := op.onTables_spec h hn
    obtain ⟨hanswers, hrun⟩ := ih hstep hk
    exact ⟨congrArg₂ List.cons hanswer hanswers, hrun⟩

theorem Keyed.take {ops : List (Operation ι α)} (hk : Keyed ms ops) (n : Nat) :
    Keyed ms (ops.take n) := by
  induction n generalizing ms ops with
  | zero => trivial
  | succ n ih =>
    cases ops with
    | nil => trivial
    | cons op ops => exact ⟨hk.1, ih hk.2⟩

/-- **Tables are finite maps**: along every sequence of operations on tables keyed by interned
strings the answers are those of plain maps, and at every moment each table has the shape it should
have, holds the entries of its map, and is searched in finitely many steps. -/
theorem answers_onTables (ops : List (Operation ι α)) (hk : Keyed (fun _ => ∅) ops) :
    (runTables (fun _ => {}) ops).1 = (runMaps (fun _ => ∅) ops).1 ∧
      ∀ n i, ((runTables (fun _ => {}) (ops.take n)).2 i).Sturdy ∧
        ∀ k v, ((runTables (fun _ => {}) (ops.take n)).2 i).Holds k v ↔
          ((runMaps (fun _ => ∅) (ops.take n)).2 i).lookup k = some v := by
  refine ⟨(runTables_spec ops (fun _ => Table.represents_empty) hk).1, fun n i => ?_⟩
  have hrep := (runTables_spec (ops.take n) (fun _ => Table.represents_empty) (hk.take n)).2 i
  exact ⟨hrep.valid.sturdy, fun k v => hrep.holds_iff⟩

/-- The string `text` under the identity `n`. -/
def interned (n : Nat) (text : String) : Symbol := ⟨⟨n⟩, text, hashText text⟩

/-- A string that is dropped, and comes back under another identity. -/
def sampleOperations : List (Operation Unit Nat) :=
  [.set () (interned 1 "a") 10, .set () (interned 2 "b") 20, .addAll () (),
    .removeUnless () (fun k => k.text == "b"), .findText () "a", .set () (interned 3 "a") 30,
    .get () (interned 3 "a"), .size ()]

theorem interned_of_list {names : Set Symbol} (l : List Symbol) (hmem : ∀ k ∈ names, k ∈ l)
    (hhash : ∀ k ∈ l, k.hash = hashText k.text)
    (hl : ∀ k ∈ l, ∀ k' ∈ l, k.ref = k'.ref ∨ k.text = k'.text → k = k') : Interned names where
  eq_of_ref k hk k' hk' h := hl k (hmem k hk) k' (hmem k' hk') (Or.inl h)
  eq_of_text k hk k' hk' h := hl k (hmem k hk) k' (hmem k' hk') (Or.inr h)
  hash_eq k hk := hhash k (hmem k hk)

theorem mem_keys_of_names {ms : Unit → Plain α} {op : Operation Unit α} :
    ∀ k ∈ op.names ms, k ∈ (ms ()).keys ++ op.key?.toList := by
  rintro k (⟨_, hk⟩ | hk)
  · exact List.mem_append_left _ (AList.mem_keys.1 hk)
  · exact List.mem_append_right _ (by simp [hk])

theorem answers_onTables_sample : Keyed (fun _ => ∅) sampleOperations ∧
    (runTables (fun _ => {}) sampleOperations).1 =
    [.flag true, .flag true, .done, .number 1, .symbol none,
      .flag true, .value (some 30), .number 2] := by
  have hkeyed : Keyed (fun _ => ∅) sampleOperations := by
    refine ⟨?_, ?_, ?_, ?_, ?_, ?_, ?_, ?_, trivial⟩ <;>
      exact interned_of_list _ mem_keys_of_names (by decide) (by decide)
  exact ⟨hkeyed, (answers_onTables sampleOperations hkeyed).1.trans (by decide)⟩

end Operation

end Parlance
