/-
  Images of scripts, written and read back.
-/
import Parlance.Image.Decoding
import Parlance.Proofs.Cbor.RoundTrip
import Parlance.Proofs.Machine.Accepted

namespace Parlance

namespace Cbor

mutual

/-- The length of the longest array. -/
def longest : Cbor → Nat
  | .array items => max items.length (longestAll items)
  | .map entries => longestEntries entries
  | .tag _ item => longest item
  | _ => 0

def longestAll : List Cbor → Nat
  | [] => 0
  | item :: items => max (longest item) (longestAll items)

def longestEntries : List (Cbor × Cbor) → Nat
  | [] => 0
  | (key, value) :: entries => max (max (longest key) (longest value)) (longestEntries entries)

end

@[simp] theorem levels_ofInt (n : Int) : (ofInt n).levels = 0 := by
  unfold ofInt
  split <;> simp [levels]

theorem writable_unsigned {n : Nat} (h : n < 24) : (unsigned n).Writable :=
  Nat.lt_trans h (by decide : 24 < Nat.pow 2 64)

theorem writable_ofInt {n : Int} (hle : -Number.wordLimit ≤ n) (hlt : n < Number.wordLimit) :
    (ofInt n).Writable := by
  have h64 : Nat.pow 2 64 = 18446744073709551616 := rfl
  unfold Number.wordLimit at hle hlt
  unfold ofInt
  split <;> simp only [Writable] <;> omega

theorem allWritable_ofInt (ns : List Int)
    (h : ∀ n ∈ ns, -Number.wordLimit ≤ n ∧ n < Number.wordLimit) : AllWritable (ns.map ofInt) := by
  induction ns with
  | nil => trivial
  | cons n ns ih =>
    obtain ⟨hle, hlt⟩ := h n List.mem_cons_self
    exact ⟨writable_ofInt hle hlt, ih fun k hk => h k (List.mem_cons_of_mem _ hk)⟩

end Cbor

namespace Image

open Cbor

/-! ## Fields -/

theorem word?_ofInt {n : Int} (hle : -Number.wordLimit ≤ n) (hlt : n < Number.wordLimit) :
    word? (ofInt n) = some (some n) := by
  have hlimit : Number.wordLimit = 9223372036854775808 := rfl
  have h63 : Nat.pow 2 63 = 9223372036854775808 := rfl
  unfold ofInt
  split
  · simp only [word?, whole?, plain?]
    rw [Int.toNat_of_nonneg (by assumption), if_pos hlt]
  · simp only [word?, whole?, plain?]
    rw [if_pos (by omega)]
    simp only
    rw [if_pos (by omega)]
    congr 2
    omega

theorem readAll?_words (ns : List Int) (h : ∀ n ∈ ns, -Number.wordLimit ≤ n ∧ n < Number.wordLimit)
    (before : Array Int) :
    readAll? word? 0 id (ns.map ofInt) before = some (before ++ ns.toArray) := by
  induction ns generalizing before with
  | nil => simp [readAll?]
  | cons n ns ih =>
    obtain ⟨hle, hlt⟩ := h n List.mem_cons_self
    rw [List.map_cons, readAll?, word?_ofInt hle hlt]
    simp only
    rw [ih fun k hk => h k (List.mem_cons_of_mem _ hk)]
    simp

theorem entries?_fields (fields : List (Nat × Cbor)) :
    entries? (fields.map fun f => field f.1 f.2) = some fields := by
  have hfrom : ∀ before, entriesFrom? before (fields.map fun f => field f.1 f.2) =
      some (before.reverse ++ fields) := by
    induction fields with
    | nil => simp [entriesFrom?]
    | cons f fields ih =>
      intro before
      rw [List.map_cons, field, entriesFrom?]
      simp only [fieldNumber?]
      rw [ih]
      simp
  exact hfrom []

theorem fieldAs?_eq {α : Type} {fields : List (Nat × Cbor)} {n : Nat} {item : Cbor}
    {read : Cbor → Option (Option α)}
    {a : α} (default : α) (hitem : fieldOf? fields n = some item) (hread : read item = some (some a)) :
    fieldAs? fields n read default = some a := by
  simp [fieldAs?, hitem, hread]

end Image

/-! ## Storable functions -/

theorem Proto.length_constants_le {p : Proto} (h : p.check = .ok ()) :
    p.constants.length ≤ maxConstants := by
  unfold check at h
  dsimp only at h
  split at h
  · cases h
  · split at h
    · cases h
    · rename_i hle
      simpa [chunk] using hle

mutual

/-- The names are not empty, the header is in range, texts and lines fit in words, and every
constant has a form in images. -/
def Proto.Storable : Proto → Prop
  | ⟨name, arity, upvalueCount, _, lines, constants⟩ =>
    (∀ s, name = some s → s ≠ "" ∧ s.utf8ByteSize < Nat.pow 2 64) ∧ 0 ≤ arity ∧
      arity ≤ Image.maxParameters ∧ 0 ≤ upvalueCount ∧ upvalueCount ≤ Image.maxUpvalues ∧
      (∀ n ∈ lines.toList, -Number.wordLimit ≤ n ∧ n < Number.wordLimit) ∧
        Constant.AllStorable constants

def Constant.AllStorable : List Constant → Prop
  | [] => True
  | k :: ks => k.Storable ∧ Constant.AllStorable ks

/-- There is no form for natives, and none for the zero below zero. -/
def Constant.Storable : Constant → Prop
  | .nul | .bool _ => True
  | .number x => x ≠ -0
  | .text s => s.utf8ByteSize < Nat.pow 2 64
  | .native _ => False
  | .function f => f.Storable

end

mutual

/-- What the record of a function holds. -/
def Proto.record : Proto → Image.FunctionRecord
  | ⟨name, arity, upvalueCount, code, lines, constants⟩ =>
    { name := name.getD "", arity, upvalueCount, code, lines, constants := Constant.records constants }

def Constant.records : List Constant → List Image.ConstantRecord
  | [] => []
  | k :: ks => k.record :: Constant.records ks

/-- What the record of a constant holds. A native has none. -/
def Constant.record : Constant → Image.ConstantRecord
  | .nul | .native _ => .mk 0 false 0 "" none
  | .bool b => .mk 1 b 0 "" none
  | .number x => .mk 2 false x "" none
  | .text s => .mk 3 false 0 s none
  | .function f => .mk 4 false 0 "" (some f.record)

end

theorem Constant.length_records (ks : List Constant) : (records ks).length = ks.length := by
  induction ks with
  | nil => rfl
  | cons k ks ih => rw [records, List.length_cons, ih, List.length_cons]

namespace Image

open Cbor

/-- The item of a function, from which it can be read back. -/
structure Stored (p : Proto) (item : Cbor) : Prop where
  written : functionRecord p = .ok item
  deep : 2 ≤ item.levels
  read : ∀ levels, item.levels ≤ levels → functionRecord? levels item = some p.record
  made : ∀ depth, depth + item.levels ≤ maxNesting → toProto depth p.record = .ok p
  writable : item.longest ≤ maxItems → item.Writable

theorem Stored.isNull {p : Proto} {item : Cbor} (h : Stored p item) : isNull item = false := by
  cases item with
  | simple n => exact absurd h.deep (by simp [levels])
  | _ => rfl

/-- The same of a constant. -/
structure StoredConstant (k : Constant) (item : Cbor) : Prop where
  written : ∀ owner index, constantRecord owner index k = .ok item
  read : ∀ levels, item.levels ≤ levels + 1 → constantRecord? levels item = some k.record
  made : ∀ depth index, depth + item.levels ≤ maxNesting → toConstant depth index k.record = .ok k
  writable : item.longest ≤ maxItems → item.Writable

/-- The same of a pool. -/
structure StoredPool (ks : List Constant) (items : List Cbor) : Prop where
  length_eq : items.length = ks.length
  written : ∀ owner index, constantRecords owner index ks = .ok items
  read : ∀ levels before, levelsAll items ≤ levels + 1 →
    constantRecords? levels before items = some (before.reverse ++ Constant.records ks)
  made : ∀ depth index, depth + levelsAll items ≤ maxNesting →
    toConstants depth index (Constant.records ks) = .ok ks
  writable : longestAll items ≤ maxItems → AllWritable items

/-- The field for the name of a function, if it has one. -/
def titleFields (name : Option String) : List (Nat × Cbor) := (name.map fun s => (1, .text s)).toList

mutual

theorem exists_stored (p : Proto) (hp : p.Storable) (hv : p.verify = .ok ()) :
    ∃ item, Stored p item := by
  have hcheck := Proto.check_of_verify hv
  have hsize := (Proto.check_spec hcheck).1
  have hcount := Proto.length_constants_le hcheck
  obtain ⟨name, arity, upvalueCount, code, lines, constants⟩ := p
  obtain ⟨hname, harity, harity', hupvalues, hupvalues', hlines, hconstants⟩ := hp
  have hpool : Constant.verifyAll constants = .ok () := by
    rw [Proto.verify] at hv
    split at hv
    · cases hv
    · exact hv
  obtain ⟨items, hitems⟩ := exists_storedPool constants hconstants hpool
  have hlimit : Number.wordLimit = 9223372036854775808 := rfl
  unfold maxParameters at harity'
  unfold maxUpvalues at hupvalues'
  generalize hfields : titleFields name ++
    [(2, ofInt arity), (3, ofInt upvalueCount), (4, .bytes code.toList),
      (5, .array (lines.toList.map ofInt)), (6, .array items)] = fields
  have hlevels : (Cbor.map (fields.map fun f => field f.1 f.2)).levels =
      max (levelsAll (lines.toList.map ofInt)) (levelsAll items) + 2 := by
    subst hfields
    cases name <;> simp [titleFields, levels, levelsEntries, field]
  refine ⟨.map (fields.map fun f => field f.1 f.2), ?_, by omega, fun levels hle => ?_,
    fun depth hle => ?_, fun hle => ?_⟩
  · subst hfields
    cases name with
    | none => rw [functionRecord, hitems.written]; rfl
    | some s =>
      have hne : s.isEmpty = false := by simpa using (hname s rfl).1
      rw [functionRecord, hitems.written]
      simp [titleFields, hne]
  · obtain ⟨levels, rfl⟩ : ∃ k, levels = k + 1 := ⟨levels - 1, by omega⟩
    have htitle : fieldAs? fields 1 text? "" = some (name.getD "") := by
      subst hfields
      cases name <;> rfl
    have harity : fieldAs? fields 2 word? 0 = some arity :=
      fieldAs?_eq 0 (by subst hfields; cases name <;> rfl) (word?_ofInt (by omega) (by omega))
    have hupvalues : fieldAs? fields 3 word? 0 = some upvalueCount :=
      fieldAs?_eq 0 (by subst hfields; cases name <;> rfl) (word?_ofInt (by omega) (by omega))
    have hcode : fieldAs? fields 4 (fun i => (byteString? i).map some) #[] = some code :=
      fieldAs?_eq #[] (by subst hfields; cases name <;> rfl) rfl
    have hlines : fieldAs? fields 5 (fun i => do some (← readAll? word? 0 id (← list? i) #[])) #[] =
        some lines := by
      refine fieldAs?_eq #[] (by subst hfields; cases name <;> rfl) ?_
      have := readAll?_words lines.toList hlines #[]
      simp [list?, plain?, this]
    have hconstants :
      fieldAs? fields 6 (fun i => do some (← constantRecords? levels [] (← list? i))) [] =
        some (Constant.records constants) := by
      refine fieldAs?_eq [] (by subst hfields; cases name <;> rfl) ?_
      have := hitems.read levels [] (by omega)
      simp [list?, plain?, this]
    rw [functionRecord?]
    exact Option.bind_eq_some_iff.2 ⟨_, rfl, Option.bind_eq_some_iff.2 ⟨_, entries?_fields fields,
      Option.bind_eq_some_iff.2
      ⟨_, htitle, Option.bind_eq_some_iff.2
        ⟨_, harity, Option.bind_eq_some_iff.2
        ⟨_, hupvalues, Option.bind_eq_some_iff.2 ⟨_, hcode, Option.bind_eq_some_iff.2 ⟨_, hlines,
      Option.bind_eq_some_iff.2 ⟨_, hconstants, rfl⟩⟩⟩⟩⟩⟩⟩⟩
  · have hrecords := hitems.made depth 0 (by omega)
    have hlength : ¬ maxConstants < (Constant.records constants).length := by
      rw [Constant.length_records]
      exact Nat.not_lt.2 hcount
    have hheader :
        (!(0 ≤ arity && arity ≤ maxParameters && 0 ≤ upvalueCount && upvalueCount ≤ maxUpvalues)) =
        false := by
      simp [maxParameters, maxUpvalues, *]
    have htitle : (if (name.getD "").isEmpty then none else some (name.getD "")) = name := by
      cases name with
      | none => rfl
      | some s =>
        have hne : s.isEmpty = false := by simpa using (hname s rfl).1
        simp [hne]
    rw [Proto.record, toProto, if_neg (by omega), if_neg hlength, if_neg (by simp [hheader])]
    simp only [hrecords, htitle]
  · have hlongest : lines.size ≤ maxItems ∧ longestAll items ≤ maxItems := by
      subst hfields
      cases name <;> simp [titleFields, longest, longestEntries, field] at hle <;> omega
    have hcode : code.toList.length < Nat.pow 2 64 := by
      rw [Array.length_toList, ← show lines.size = code.size from hsize]
      exact Nat.lt_of_le_of_lt hlongest.1 (by decide)
    have hpool : items.length ≤ maxItems := hitems.length_eq ▸ Nat.le_trans hcount (by decide)
    have hwords := allWritable_ofInt lines.toList hlines
    have htail : EntriesWritable ([(2, ofInt arity), (3, ofInt upvalueCount), (4, .bytes code.toList),
        (5, .array (lines.toList.map ofInt)), (6, .array items)].map fun f => field f.1 f.2) :=
      ⟨writable_unsigned (by decide : 2 < 24), writable_ofInt (by omega) (by omega),
        writable_unsigned (by decide : 3 < 24), writable_ofInt (by omega) (by omega),
        writable_unsigned (by decide : 4 < 24), hcode, writable_unsigned (by decide : 5 < 24),
        ⟨by simpa using hlongest.1, hwords⟩, writable_unsigned (by decide : 6 < 24),
        ⟨hpool, hitems.writable hlongest.2⟩, trivial⟩
    subst hfields
    cases name with
    | none => exact ⟨by simp [titleFields, maxItems], htail⟩
    | some s =>
      exact ⟨by simp [titleFields, maxItems], writable_unsigned (by decide : 1 < 24),
        (hname s rfl).2, htail⟩

theorem exists_storedPool (ks : List Constant) (hks : Constant.AllStorable ks)
    (hv : Constant.verifyAll ks = .ok ()) : ∃ items, StoredPool ks items := by
  cases ks with
  | nil =>
    exact ⟨[], rfl, fun _ _ => rfl, fun _ before _ => by simp [constantRecords?, Constant.records],
      fun _ _ _ => rfl, fun _ => trivial⟩
  | cons k ks =>
    rw [Constant.verifyAll] at hv
    split at hv
    · cases hv
    · rename_i hk
      obtain ⟨item, hitem⟩ := exists_storedConstant k hks.1 hk
      obtain ⟨items, hitems⟩ := exists_storedPool ks hks.2 hv
      refine ⟨item :: items, by simp [hitems.length_eq], fun owner index => ?_,
        fun levels before hle => ?_, fun depth index hle => ?_, fun hle => ?_⟩
      · rw [constantRecords, hitem.written, hitems.written]
      · rw [levelsAll] at hle
        rw [constantRecords?, hitem.read levels (by omega)]
        simp only
        rw [hitems.read levels _ (by omega)]
        simp [Constant.records]
      · rw [levelsAll] at hle
        rw [Constant.records, toConstants, hitem.made depth index (by omega)]
        simp only
        rw [hitems.made depth (index + 1) (by omega)]
      · rw [longestAll] at hle
        exact ⟨hitem.writable (by omega), hitems.writable (by omega)⟩

theorem exists_storedConstant (k : Constant) (hk : k.Storable) (hv : k.verify = .ok ()) :
    ∃ item, StoredConstant k item := by
  cases k with
  | nul =>
    refine ⟨_, fun _ _ => rfl, fun _ _ => by rw [constantRecord?]; rfl, fun _ _ _ => rfl, fun _ => ?_⟩
    simp [Writable, EntriesWritable, field, maxItems]
  | bool b =>
    refine ⟨_, fun _ _ => rfl, fun _ _ => ?_, fun _ _ _ => rfl, fun _ => ?_⟩
    · rw [constantRecord?]
      cases b <;> rfl
    · cases b <;> simp [Writable, EntriesWritable, field, maxItems, ofBool]
  | number x =>
    refine ⟨_, fun _ _ => rfl, fun _ _ => ?_, fun _ _ _ => rfl, fun _ => ?_⟩
    · rw [constantRecord?]
      split
      · rename_i hzero
        obtain ⟨-, -, rfl | ⟨rfl, -⟩ | ⟨hminus, -⟩⟩ := Float.beq_iff_ne_nan_and_eq.1 hzero
        · rfl
        · rfl
        · exact (hk hminus).elim
      · rfl
    · split <;> simp [Writable, EntriesWritable, field, maxItems]
  | text s =>
    refine ⟨_, fun _ _ => rfl, fun _ _ => ?_, fun _ _ _ => rfl, fun _ => ?_⟩
    · rw [constantRecord?]
      split
      · rename_i hempty
        obtain rfl : s = "" := by simpa using hempty
        rfl
      · rfl
    · have hs : s.utf8ByteSize < Nat.pow 2 64 := hk
      split
      · simp [Writable, EntriesWritable, field, maxItems]
      · simpa [Writable, EntriesWritable, field, maxItems] using hs
  | native name => exact hk.elim
  | function f =>
    obtain ⟨item, hitem⟩ := exists_stored f hk hv
    have hlevels : (Cbor.map [field 1 (.unsigned 4), field 5 item]).levels = item.levels + 1 := by
      simp [levels, levelsEntries, field]
    have hlongest : (Cbor.map [field 1 (.unsigned 4), field 5 item]).longest = item.longest := by
      simp [longest, longestEntries, field]
    refine ⟨.map [field 1 (.unsigned 4), field 5 item], fun owner index => ?_, fun levels hle => ?_,
      fun depth index hle => ?_, fun hle => ?_⟩
    · rw [constantRecord, hitem.written]
    · have hread : fieldAs? [(1, .unsigned 4), (5, item)] 5
        (fun i => (reference? (functionRecord? levels) i).map some)
          none = some (some f.record) := by
        show ((reference? (functionRecord? levels) item).map some).map _ = _
        rw [reference?, hitem.isNull, hitem.read levels (by omega)]
        rfl
      rw [constantRecord?]
      exact Option.bind_eq_some_iff.2
        ⟨_, rfl, Option.bind_eq_some_iff.2
          ⟨_, rfl, Option.bind_eq_some_iff.2
          ⟨_, rfl, Option.bind_eq_some_iff.2
          ⟨_, rfl, Option.bind_eq_some_iff.2 ⟨_, rfl, Option.bind_eq_some_iff.2 ⟨_, rfl,
        Option.bind_eq_some_iff.2 ⟨_, hread, rfl⟩⟩⟩⟩⟩⟩⟩
    · have hle' := hitem.deep
      rw [Constant.record, toConstant, hitem.made (depth + 1) (by omega)]
    · rw [hlongest] at hle
      simpa [Writable, EntriesWritable, field, maxItems] using hitem.writable hle

end

/-- The item that an image is, around the item of its script. -/
def fileItem (record : Cbor) : Cbor :=
  .map [field 1 (.text magic), field 2 (.ofInt version), field 3 record]

theorem encode_eq {p : Proto} {record : Cbor} (h : functionRecord p = .ok record) :
    encode p = .ok (Cbor.encode (fileItem record)) := by
  rw [encode, h]
  rfl

theorem fileRecord?_eq {bs : List UInt8} {item : Cbor} {record : FunctionRecord}
    (h : decode? bs = some (fileItem item))
    (hnull : isNull item = false) (hrecord : functionRecord? (maxDepth + 1) item = some record) :
    fileRecord? bs = some ⟨magic, version, some record⟩ := by
  have hmain : fieldAs? [(1, .text magic), (2, .ofInt version), (3, item)] 3
      (fun i => (reference? (functionRecord? (maxDepth + 1)) i).map some) none =
      some (some record) := by
    show ((reference? (functionRecord? (maxDepth + 1)) item).map some).map _ = _
    rw [reference?, hnull, hrecord]
    rfl
  exact Option.bind_eq_some_iff.2
    ⟨_, h, Option.bind_eq_some_iff.2
      ⟨_, rfl, Option.bind_eq_some_iff.2
      ⟨_, rfl, Option.bind_eq_some_iff.2
      ⟨_, rfl, Option.bind_eq_some_iff.2 ⟨_, rfl, Option.bind_eq_some_iff.2 ⟨_, hmain, rfl⟩⟩⟩⟩⟩⟩

theorem Stored.decode {p : Proto} {record : Cbor} (h : Stored p record) (hname : p.name = none)
    (harity : p.arity = 0)
    (hupvalues : p.upvalueCount = 0) (hv : p.verify = .ok ())
    (hlevels : (fileItem record).levels ≤ maxDepth)
    (hlongest : (fileItem record).longest ≤ maxItems) :
    decode (Cbor.encode (fileItem record)) = .ok p := by
  have hlevels' : (fileItem record).levels = record.levels + 1 := by
    simp [fileItem, levels, levelsEntries, field]
  have hlongest' : (fileItem record).longest = record.longest := by
    simp [fileItem, longest, longestEntries, field, ofInt, version]
  have hmagic : (Cbor.text magic).Writable := (by decide : magic.utf8ByteSize < Nat.pow 2 64)
  have hwritable : (fileItem record).Writable := by
    refine ⟨by simp [maxItems], writable_unsigned (by decide), hmagic, writable_unsigned (by decide),
      writable_ofInt (by decide) (by decide), writable_unsigned (by decide),
      h.writable (by omega), trivial⟩
  have hitem := decode?_encode hwritable hlevels
  have hfile := fileRecord?_eq hitem h.isNull (h.read _ (by omega))
  have hnesting : maxDepth ≤ maxNesting := by decide
  have hmade := h.made 0 (by omega)
  have hscript : (p.record.name != "" || p.record.arity != 0 || p.record.upvalueCount != 0) =
      false := by
    obtain ⟨_, _, _, _, _, _⟩ := p
    subst hname harity hupvalues
    rfl
  rw [Image.decode, Image.read, hfile]
  simp only [bne_self_eq_false, Bool.false_eq_true, if_false, hscript, hmade, hv]

end Image

/-- Every string that can be reached from the object is the one that the heap keeps under its
text. -/
def Heap.StringsInterned (h : Heap) (r : Ref) : Prop :=
  ∀ x s n, h.Reach [r] x → h.object? x = some (.text s n) →
    ∃ key, h.strings.findText? s (hashText s) = some key ∧ key.ref = x

theorem Machine.load_spec {m : Machine} (hs : m.heap.Sound)
    (hroots : ∀ x ∈ m.roots.refs, m.heap.Live x) (p : Proto) :
    (m.load p).2.heap.Sound ∧ (m.load p).2.heap.LaidOut p (m.load p).1 ∧
    (m.load p).2.heap.StringsInterned (m.load p).1 := by
  have hl := Heap.layOut_spec (F := fun _ => True) (fun _ _ => trivial) hs hroots
    (p.admitted_of_native fun _ => trivial)
  refine ⟨hl.sound, hl.laid, fun x s n hreach ho => ?_⟩
  have hroot : ∀ y ∈ [(m.load p).1], (m.load p).2.heap.Live y :=
    fun y hy => List.mem_singleton.1 hy ▸ hl.live
  have hlive := hl.sound.live_of_reach hroot hreach
  exact ⟨⟨x, s, n⟩, hl.sound.findText?_eq_some_iff.2 ⟨rfl, hlive, ho⟩, rfl⟩

/-- **Images are read back as they were written.** A script that has been checked and whose
constants have a form in images is written; if what is written has no more than `Cbor.maxDepth`
levels and no array of more than `Cbor.maxItems` items, it is read as the same script, which any
heap in order takes with its strings interned. -/
theorem decode_encode {p : Proto} (hname : p.name = none) (harity : p.arity = 0)
    (hupvalues : p.upvalueCount = 0) (hp : p.Storable) (hverified : p.verify = .ok ()) :
    ∃ record bytes, Image.functionRecord p = .ok record ∧ Image.encode p = .ok bytes ∧
      ((Image.fileItem record).levels ≤ Cbor.maxDepth →
        (Image.fileItem record).longest ≤ Cbor.maxItems → Image.decode bytes = .ok p ∧
        ∀ m : Machine, m.heap.Sound → (∀ x ∈ m.roots.refs, m.heap.Live x) →
          (m.load p).2.heap.Sound ∧ (m.load p).2.heap.LaidOut p (m.load p).1 ∧
          (m.load p).2.heap.StringsInterned (m.load p).1) := by
  obtain ⟨record, hstored⟩ := Image.exists_stored p hp hverified
  refine ⟨record, _, hstored.written, Image.encode_eq hstored.written, fun hlevels hlongest =>
    ⟨?_, ?_⟩⟩
  · exact hstored.decode hname harity hupvalues hverified hlevels hlongest
  · exact fun m hs hroots => m.load_spec hs hroots p

/-- A script with a function, texts, and numbers of every length in bytes. -/
def wordyScript : Proto where
  code := #[Op.closure.toByte, 0, Op.call.toByte, 0, Op.print.toByte, 1, Op.pushNul.toByte,
    Op.return.toByte]
  lines := #[1, 1, -3, 70000, 2, 2, 2, 2]
  constants :=
    [.function
      { name := some "été", code := #[Op.pushNul.toByte, Op.return.toByte], lines := #[1, 1] },
    .text "", .text "une chaîne", .number 0, .number 1.5, .number 100000.5, .number 0.1,
    .number (0 / 0), .bool true, .bool false, .nul]

theorem decode_encode_wordyScript :
    ∃ bytes, Image.encode wordyScript = .ok bytes ∧ Image.decode bytes = .ok wordyScript ∧
    ((Machine.new {}).load wordyScript).2.heap.LaidOut wordyScript
    ((Machine.new {}).load wordyScript).1 := by
  have hstorable : wordyScript.Storable := by
    have hminus : ∀ x : Float, (x.toBits == (-0 : Float).toBits) = false → x ≠ -0 := by
      rintro x hx rfl
      simp at hx
    simp only [wordyScript, Proto.Storable, Constant.AllStorable, Constant.Storable]
    refine ⟨by simp, by decide, by decide, by decide, by decide, by decide +kernel, ⟨?_, by decide,
      by decide, by decide, by decide, by decide +kernel, trivial⟩, by decide +kernel,
      by decide +kernel, hminus _ (by decide +kernel), hminus _ (by decide +kernel),
      hminus _ (by decide +kernel), hminus _ (by decide +kernel), hminus _ (by decide +kernel),
      trivial, trivial, trivial, trivial⟩
    rintro s ⟨⟩
    exact ⟨by decide, by decide +kernel⟩
  obtain ⟨record, bytes, hrecord, hbytes, h⟩ := decode_encode rfl rfl rfl hstorable (by decide +kernel)
  have hnew := Machine.sound_new {}
  have hfits : (match Image.functionRecord wordyScript with
    | .ok record => decide ((Image.fileItem record).levels ≤ Cbor.maxDepth) &&
        decide ((Image.fileItem record).longest ≤ Cbor.maxItems)
    | .error _ => false) = true := by decide +kernel
  rw [hrecord] at hfits
  simp only [Bool.and_eq_true, decide_eq_true_eq] at hfits
  obtain ⟨hdecode, hload⟩ := h hfits.1 hfits.2
  exact ⟨bytes, hbytes, hdecode, (hload _ hnew.heap fun x hx => hnew.roots hx).2.1⟩

end Parlance
