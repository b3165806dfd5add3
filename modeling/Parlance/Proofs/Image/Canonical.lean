/-
  Images have one form.
-/
import Parlance.Proofs.Cbor.Bounds
import Parlance.Proofs.Code.Listings
import Parlance.Proofs.Image.RoundTrip

namespace Parlance

/-! ## Zeros -/

mutual

/-- The function with all its zeros above zero. -/
def Proto.canonical : Proto → Proto
  | ⟨name, arity, upvalueCount, code, lines, constants⟩ =>
    ⟨name, arity, upvalueCount, code, lines, Constant.canonicalAll constants⟩

def Constant.canonicalAll : List Constant → List Constant
  | [] => []
  | k :: ks => k.canonical :: Constant.canonicalAll ks

def Constant.canonical : Constant → Constant
  | .number x => .number (if x == 0 then 0 else x)
  | .function f => .function f.canonical
  | k => k

end

namespace Image

mutual

theorem functionRecord_canonical (p : Proto) : functionRecord p.canonical = functionRecord p := by
  obtain ⟨_, _, _, _, _, _⟩ := p
  simp only [Proto.canonical, functionRecord, constantRecords_canonical]

theorem constantRecords_canonical (owner : String) (index : Nat) (ks : List Constant) :
    constantRecords owner index (Constant.canonicalAll ks) = constantRecords owner index ks := by
  cases ks with
  | nil => rfl
  | cons k ks =>
    rw [Constant.canonicalAll, constantRecords, constantRecords, constantRecord_canonical,
      constantRecords_canonical]

theorem constantRecord_canonical (owner : String) (index : Nat) (k : Constant) :
    constantRecord owner index k.canonical = constantRecord owner index k := by
  cases k with
  | number x =>
    rw [Constant.canonical, constantRecord, constantRecord]
    have hzero : ((0 : Float) == 0) = true := by decide +kernel
    cases hx : x == 0 <;> simp only [Bool.false_eq_true, if_false, if_true, hx, hzero]
  | function f => rw [Constant.canonical, constantRecord, constantRecord, functionRecord_canonical]
  | _ => rfl

end

end Image

/-! ## Checks -/

section

variable {c : Chunk Constant} {ks : Array Constant}
  (hlength : instructionLength Constant.pool { c with constants := ks } =
    instructionLength Constant.pool c)
include hlength

theorem decode_congr (upvalueCount : Int)
    (hoperands : ∀ u op o behind, checkOperands { c with constants := ks } u op o behind =
      checkOperands c u op o behind) :
    decode { c with constants := ks } upvalueCount = decode c upvalueCount := by
  have hfrom : ∀ fuel offset before, decodeFrom { c with constants := ks } upvalueCount fuel
    offset before =
      decodeFrom c upvalueCount fuel offset before := by
    intro fuel
    induction fuel with
    | zero => exact fun _ _ => rfl
    | succ fuel ih =>
      intro offset before
      rw [decodeFrom, decodeFrom]
      simp only [hlength, hoperands, ih, Chunk.behind, Chunk.count]
  unfold decode
  rw [hfrom]
  rfl

theorem checkHeights_congr (arity : Int) :
    checkHeights { c with constants := ks } arity = checkHeights c arity := by
  have hvisit : ∀ h o, Heights.visit { c with constants := ks } h o = Heights.visit c h o := by
    intro h o
    unfold Heights.visit
    simp only [hlength]
    rfl
  have hrun : ∀ fuel h, Heights.run { c with constants := ks } fuel h = Heights.run c fuel h := by
    intro fuel
    induction fuel with
    | zero => exact fun _ => rfl
    | succ fuel ih =>
      intro h
      rw [Heights.run, Heights.run]
      simp only [hvisit, ih]
  unfold checkHeights
  simp only [hrun]
  rfl

end

theorem Constant.canonicalAll_eq_map (ks : List Constant) : canonicalAll ks = ks.map canonical := by
  induction ks with
  | nil => rfl
  | cons k ks ih => rw [canonicalAll, ih, List.map_cons]

theorem Proto.check_canonical (p : Proto) : p.canonical.check = p.check := by
  obtain ⟨_, arity, upvalueCount, code, lines, constants⟩ := p
  have hget : ∀ i : Nat, (Constant.canonicalAll constants).toArray[i]? =
      (constants.toArray[i]?).map Constant.canonical := by
    simp [Constant.canonicalAll_eq_map]
  have hlength :
    instructionLength Constant.pool ⟨code, lines, (Constant.canonicalAll constants).toArray⟩ =
      instructionLength Constant.pool ⟨code, lines, constants.toArray⟩ := by
    refine instructionLength_congr rfl fun i => ?_
    rw [hget, Option.bind_map]
    refine Option.bind_congr fun k _ => ?_
    rcases k with _ | _ | _ | _ | _ | ⟨⟨⟩⟩ <;> rfl
  have hoperands : ∀ u op o behind,
    checkOperands ⟨code, lines, (Constant.canonicalAll constants).toArray⟩ u op o behind =
      checkOperands ⟨code, lines, constants.toArray⟩ u op o behind := by
    have htext : ∀ k : Constant, Constant.pool.isText k.canonical = Constant.pool.isText k := by
      rintro (_ | _ | _ | _ | _ | ⟨⟨⟩⟩) <;> rfl
    intro u op o behind
    unfold checkOperands
    simp only [hget]
    cases op <;> try rfl
    all_goals
      simp only [Chunk.byte]
      cases constants.toArray[((code[o + 1]?).map UInt8.toNat).getD 0]? with
      | none => rfl
      | some k => simp only [Option.map_some, htext]
  have hdecode := decode_congr (c := ⟨code, lines, constants.toArray⟩) hlength upvalueCount hoperands
  have hheights := checkHeights_congr (c := ⟨code, lines, constants.toArray⟩) hlength arity
  simp only at hdecode hheights
  simp only [canonical, check, chunk, hdecode, hheights]
  simp only [Constant.canonicalAll_eq_map, List.size_toArray, List.length_map]

mutual

theorem Proto.verify_canonical (p : Proto) (h : p.verify = .ok ()) : p.canonical.verify = .ok () := by
  have hcheck := Proto.check_of_verify h
  have hcheck' := p.check_canonical.trans hcheck
  obtain ⟨_, _, _, _, _, constants⟩ := p
  rw [Proto.verify, hcheck] at h
  rw [Proto.canonical] at hcheck' ⊢
  rw [Proto.verify, hcheck']
  exact Constant.verifyAll_canonical constants h

theorem Constant.verifyAll_canonical (ks : List Constant) (h : Constant.verifyAll ks = .ok ()) :
    Constant.verifyAll (Constant.canonicalAll ks) = .ok () := by
  cases ks with
  | nil => rfl
  | cons k ks =>
    rw [Constant.verifyAll] at h
    split at h
    · cases h
    · rename_i hk
      rw [Constant.canonicalAll, Constant.verifyAll, Constant.verify_canonical k hk]
      exact Constant.verifyAll_canonical ks h

theorem Constant.verify_canonical (k : Constant) (h : k.verify = .ok ()) :
    k.canonical.verify = .ok () := by
  cases k with
  | function f =>
    rw [Constant.verify] at h
    rw [Constant.canonical, Constant.verify]
    exact Proto.verify_canonical f h
  | _ => rfl

end

/-! ## Bounds -/

mutual

/-- A function inside `j` others, with those in its pool. -/
def Proto.Compact (j : Nat) : Proto → Prop
  | ⟨_, _, _, _, lines, constants⟩ => j ≤ 9 ∧ lines.size ≤ Cbor.maxItems ∧
      constants.length ≤ Cbor.maxItems ∧ Constant.AllCompact j constants

def Constant.AllCompact (j : Nat) : List Constant → Prop
  | [] => True
  | k :: ks => k.Compact j ∧ Constant.AllCompact j ks

def Constant.Compact (j : Nat) : Constant → Prop
  | .function f => f.Compact (j + 1)
  | _ => True

end

namespace Image

open Cbor

theorem levelsAll_ofInt (ns : List Int) :
    levelsAll (ns.map ofInt) = 0 ∧ longestAll (ns.map ofInt) = 0 := by
  induction ns with
  | nil => exact ⟨rfl, rfl⟩
  | cons n ns ih =>
    have hlongest : (ofInt n).longest = 0 := by
      unfold ofInt
      split <;> rfl
    simp [levelsAll, longestAll, ih, hlongest]

mutual

theorem bounds_functionRecord {j : Nat} (p : Proto) (hp : p.Compact j) {item : Cbor}
    (h : functionRecord p = .ok item) : item.levels + 3 * j ≤ 30 ∧ item.longest ≤ maxItems := by
  obtain ⟨name, arity, upvalueCount, code, lines, constants⟩ := p
  obtain ⟨hj, hlines, hcount, hall⟩ := hp
  simp only [functionRecord] at h
  split at h
  · cases h
  · rename_i records hrecords
    obtain ⟨hlength, hlevels, hlongest⟩ := bounds_constantRecords constants hall hj hrecords
    obtain ⟨hwords, hwords'⟩ := levelsAll_ofInt lines.toList
    have hint : ∀ n, (ofInt n).longest = 0 := fun n => by unfold ofInt; split <;> rfl
    cases h
    have htitle : ∀ title : List (Cbor × Cbor), (title = [] ∨ ∃ s, title = [field 1 (.text s)]) →
        (Cbor.map (title ++
          [field 2 (.ofInt arity), field 3 (.ofInt upvalueCount), field 4 (.bytes code.toList),
            field 5 (.array (lines.toList.map .ofInt)), field 6 (.array records)])).levels =
            levelsAll records + 2 ∧
        (Cbor.map (title ++
          [field 2 (.ofInt arity), field 3 (.ofInt upvalueCount), field 4 (.bytes code.toList),
            field 5 (.array (lines.toList.map .ofInt)), field 6 (.array records)])).longest ≤
            maxItems := by
      rintro title (rfl | ⟨s, rfl⟩) <;>
        simp [levels, levelsEntries, longest, longestEntries, field, hwords, hwords', hint, hlines,
          hlength, hcount, hlongest]
    refine (htitle _ ?_).imp_left fun hlevels' => by omega
    cases name with
    | none => exact .inl rfl
    | some s =>
      simp only
      split
      · exact .inl rfl
      · exact .inr ⟨s, rfl⟩

theorem bounds_constantRecords {j index : Nat} {owner : String} (ks : List Constant)
    (hks : Constant.AllCompact j ks) (hj : j ≤ 9)
    {items : List Cbor} (h : constantRecords owner index ks = .ok items) :
    items.length = ks.length ∧ levelsAll items + 3 * j ≤ 28 ∧ longestAll items ≤ maxItems := by
  cases ks with
  | nil =>
    cases h
    exact ⟨rfl, by simp only [levelsAll]; omega, Nat.zero_le _⟩
  | cons k ks =>
    rw [constantRecords] at h
    split at h
    · cases h
    · rename_i record hrecord
      split at h
      · cases h
      · rename_i records hrecords
        cases h
        obtain ⟨hlevels, hlongest⟩ := bounds_constantRecord k hks.1 hj hrecord
        obtain ⟨hlength, hlevels', hlongest'⟩ := bounds_constantRecords ks hks.2 hj hrecords
        simp only [levelsAll, longestAll, List.length_cons]
        omega

theorem bounds_constantRecord {j index : Nat} {owner : String} (k : Constant)
    (hk : k.Compact j) (hj : j ≤ 9)
    {item : Cbor} (h : constantRecord owner index k = .ok item) :
    item.levels + 3 * j ≤ 28 ∧ item.longest ≤ maxItems := by
  cases k with
  | native name => cases h
  | function f =>
    rw [constantRecord] at h
    split at h
    · cases h
    · rename_i record hrecord
      obtain ⟨hlevels, hlongest⟩ := bounds_functionRecord f hk hrecord
      cases h
      simp only [levels, levelsEntries, longest, longestEntries, field]
      omega
  | _ =>
    cases h
    repeat' split
    all_goals
      simp only [levels, levelsEntries, longest, longestEntries, field, ofBool]
      omega

end

/-! ## What is read -/

section Reading

variable {items : List Cbor} {limit depth : Nat} {item : Cbor}

theorem sized_plain (h : Sized limit depth item) {item' : Cbor} (hp : plain? item = some item') :
    Sized limit depth item' := by
  induction h with
  | @tag depth n item h ih =>
    unfold plain? at hp
    split at hp
    case h_5 => cases ‹Cbor.tag n item = _›; exact ih hp
    case h_6 => cases hp; exact .tag h
    all_goals
      rename_i heq
      cases heq
      split at hp <;> cases hp
      all_goals
        first
          | exact h
          | exact .tag h
  | text hs => cases hp; exact .text hs
  | array hd hl h => cases hp; exact .array hd hl h
  | map hd h => cases hp; exact .map hd h
  | _ => cases hp; constructor

theorem size_of_text? (h : Sized limit depth item) {s : String} (ht : text? item = some (some s)) :
    s.utf8ByteSize ≤ limit := by
  unfold text? at ht
  split at ht
  · rename_i hp
    cases ht
    cases sized_plain h hp with
    | text hs => exact hs
  · split at ht <;> cases ht
  · cases ht

theorem sized_of_list? (h : Sized limit depth item) (hl : list? item = some items) :
    items = [] ∨ depth < maxDepth ∧ items.length ≤ maxItems ∧
      ∀ i ∈ items, Sized limit (depth + 1) i := by
  unfold list? at hl
  split at hl
  · rename_i hp
    cases hl
    cases sized_plain h hp with
    | array hd hl h => exact .inr ⟨hd, hl, h⟩
  · split at hl <;> cases hl
    exact .inl rfl
  · cases hl

theorem mem_of_entries? {entries : List (Cbor × Cbor)} {fields : List (Nat × Cbor)}
    (h : entries? entries = some fields) : ∀ f ∈ fields, ∃ e ∈ entries, e.2 = f.2 := by
  have hfrom : ∀ before, entriesFrom? before entries = some fields → ∀ f ∈ fields, f ∈ before ∨
      ∃ e ∈ entries, e.2 = f.2 := by
    clear h
    induction entries with
    | nil =>
      intro before h f hf
      cases h
      exact .inl (List.mem_reverse.1 hf)
    | cons e entries ih =>
      obtain ⟨key, value⟩ := e
      intro before h f hf
      rw [entriesFrom?] at h
      have hstep : ∀ before', entriesFrom? before' entries = some fields →
        (∀ g ∈ before', g ∈ before ∨ g.2 = value) →
          f ∈ before ∨ ∃ e ∈ (key, value) :: entries, e.2 = f.2 := by
        intro before' h' hbefore
        rcases ih before' h' f hf with hf | ⟨e, he, heq⟩
        · exact (hbefore f hf).imp id fun heq => ⟨_, List.mem_cons_self, heq.symm⟩
        · exact .inr ⟨e, List.mem_cons_of_mem _ he, heq⟩
      split at h
      · refine hstep _ h fun g hg => ?_
        rcases List.mem_cons.1 hg with rfl | hg
        · exact .inr rfl
        · exact .inl hg
      · exact hstep _ h fun g hg => .inl hg
      · cases h
  exact fun f hf => (hfrom [] h f hf).resolve_left (by simp)

/-- A field of a record has its default, or its content is read one level below. -/
theorem field_cases (h : Sized limit depth item) {entries : List (Cbor × Cbor)}
    (hm : map? item = some entries)
    {fields : List (Nat × Cbor)} (he : entries? entries = some fields) {α : Type} {n : Nat}
    {read : Cbor → Option (Option α)}
    {default a : α} (hf : fieldAs? fields n read default = some a) :
    a = default ∨ ∃ value, Sized limit (depth + 1) value ∧ read value = some (some a) := by
  unfold fieldAs? at hf
  split at hf
  · cases hf
    exact .inl rfl
  · rename_i value hvalue
    obtain ⟨a?, hread, heq⟩ := Option.map_eq_some_iff.1 hf
    cases a? with
    | none => exact .inl heq.symm
    | some a' =>
      obtain rfl : a' = a := heq
      obtain ⟨f, hfind, rfl⟩ := Option.map_eq_some_iff.1 hvalue
      obtain ⟨e, hmem, heq⟩ := mem_of_entries? he f (List.mem_of_find?_eq_some hfind)
      refine .inr ⟨f.2, ?_, hread⟩
      unfold map? at hm
      split at hm
      · rename_i hp
        cases hm
        cases sized_plain h hp with
        | map hd h => exact heq ▸ h e hmem
      · split at hm <;> cases hm
        cases hmem
      · cases hm

theorem range_of_word? {n : Int} (h : word? item = some (some n)) :
    -Number.wordLimit ≤ n ∧ n < Number.wordLimit := by
  have hlimit : Number.wordLimit = 9223372036854775808 := rfl
  have h63 : Nat.pow 2 63 = 9223372036854775808 := rfl
  unfold word? at h
  split at h
  · rename_i n' hwhole
    split at h <;> cases h
    refine ⟨?_, ‹_›⟩
    unfold whole? at hwhole
    dsimp only at hwhole
    repeat' split at hwhole
    all_goals
      cases hwhole
      try omega
  · rename_i hother
    exact (hother n h).elim

theorem lines_of_readAll? {before lines : Array Int}
    (h : readAll? word? 0 id items before = some lines)
    (hbefore : ∀ n ∈ before.toList, -Number.wordLimit ≤ n ∧ n < Number.wordLimit) :
    lines.size = before.size + items.length ∧ ∀ n ∈ lines.toList, -Number.wordLimit ≤ n ∧
      n < Number.wordLimit := by
  induction items generalizing before with
  | nil =>
    cases h
    exact ⟨rfl, hbefore⟩
  | cons item items ih =>
    rw [readAll?] at h
    split at h
    · cases h
    · rename_i n? hn
      obtain ⟨hsize, hrange⟩ := ih h fun n hn' => by
        rw [Array.toList_push, List.mem_append, List.mem_singleton] at hn'
        rcases hn' with hn' | rfl
        · exact hbefore n hn'
        · cases n? with
          | none => exact ⟨by decide, by decide⟩
          | some n => exact range_of_word? hn
      rw [Array.size_push] at hsize
      exact ⟨by rw [hsize, List.length_cons]; omega, hrange⟩

variable {levels j d : Nat} (hlimit : limit < Nat.pow 2 64)

theorem pool_of_read (hread : ∀ {item record index k}, Sized limit depth item →
      constantRecord? levels item = some record →
      toConstant d index record = .ok k → k.verify = .ok () → k.canonical.Storable ∧
        k.canonical.Compact j)
    (hitems : ∀ i ∈ items, Sized limit depth i) {before out : List ConstantRecord}
    (h : constantRecords? levels before items = some out) :
    ∃ records, out = before.reverse ++ records ∧
      ∀ index ks, toConstants d index records = .ok ks → Constant.verifyAll ks = .ok () →
        Constant.AllStorable (Constant.canonicalAll ks) ∧
          Constant.AllCompact j (Constant.canonicalAll ks) := by
  induction items generalizing before with
  | nil =>
    rw [constantRecords?] at h
    cases h
    refine ⟨[], by simp, fun index ks hks _ => ?_⟩
    cases hks
    exact ⟨trivial, trivial⟩
  | cons item items ih =>
    rw [constantRecords?] at h
    split at h
    · rename_i record hrecord
      rw [List.forall_mem_cons] at hitems
      obtain ⟨records, rfl, hpool⟩ := ih hitems.2 h
      refine ⟨record :: records, by simp, fun index ks hks hverified => ?_⟩
      rw [toConstants] at hks
      split at hks
      · cases hks
      · rename_i k hk
        split at hks
        · cases hks
        · rename_i ks' hks'
          cases hks
          rw [Constant.verifyAll] at hverified
          split at hverified
          · cases hverified
          · rename_i hk'
            obtain ⟨hstorable, hcompact⟩ := hread hitems.1 hrecord hk hk'
            obtain ⟨hstorables, hcompacts⟩ := hpool _ _ hks' hverified
            exact ⟨⟨hstorable, hstorables⟩, hcompact, hcompacts⟩
    · cases h

theorem functionRecord?_of_reference? {record : FunctionRecord}
    (h : reference? (functionRecord? levels) item = some (some record)) :
    functionRecord? levels item = some record := by
  unfold reference? at h
  split at h
  · cases h
  · simpa using h

theorem canonical_ne (x : Float) : (if x == 0 then 0 else x) ≠ (-0 : Float) := by
  split
  · intro h
    have : ((0 : Float).toBits == (-0 : Float).toBits) = false := by decide +kernel
    rw [← h] at this
    simp at this
  · rename_i hx
    rintro rfl
    exact hx (by decide +kernel)

include hlimit

theorem constant_of_read {record : ConstantRecord} {index : Nat} {k : Constant}
    (ih : ∀ {item record p j d}, Sized limit (3 * j + 1) item → functionRecord? levels item =
      some record →
      toProto d record = .ok p → p.verify = .ok () → p.canonical.Storable ∧ p.canonical.Compact j)
    (hs : Sized limit (3 * j + 3) item) (h : constantRecord? levels item = some record)
    (hk : toConstant d index record = .ok k)
    (hv : k.verify = .ok ()) : k.canonical.Storable ∧ k.canonical.Compact j := by
  simp only [constantRecord?, Option.bind_eq_bind, Option.bind_eq_some_iff] at h
  obtain ⟨entries, hentries, fields, hfields, kind, -, truth, -, number, -, text, htext, function,
    hfunction, heq⟩ := h
  cases heq
  rw [toConstant.eq_def] at hk
  dsimp only at hk
  split at hk
  · cases hk
    exact ⟨trivial, trivial⟩
  · cases hk
    exact ⟨trivial, trivial⟩
  · cases hk
    exact ⟨canonical_ne number, trivial⟩
  · cases hk
    refine ⟨?_, trivial⟩
    rcases field_cases hs hentries hfields htext with rfl | ⟨value, hvalue, hread⟩
    · exact (by decide : "".utf8ByteSize < Nat.pow 2 64)
    · exact Nat.lt_of_le_of_lt (size_of_text? hvalue hread) hlimit
  · split at hk
    · cases hk
    · rename_i f
      split at hk
      · cases hk
      · rename_i p hp
        cases hk
        rcases field_cases hs hentries hfields hfunction with hnone | ⟨value, hvalue, hread⟩
        · cases hnone
        · obtain ⟨f?, hreference, heq⟩ := Option.map_eq_some_iff.1 hread
          cases heq
          rw [Constant.verify] at hv
          exact @ih value f p (j + 1) _ hvalue (functionRecord?_of_reference? hreference) hp hv
  · cases hk

/-- **Every function that is read has a form in images**, and is not too deep for them: its lines
stand one level below it, so that the level of its constants, which need not have been written, is
there as well. -/
theorem compact_of_read {record : FunctionRecord} {p : Proto} (hs : Sized limit (3 * j + 1) item)
    (h : functionRecord? levels item = some record) (hp : toProto d record = .ok p)
    (hv : p.verify = .ok ()) : p.canonical.Storable ∧ p.canonical.Compact j := by
  induction levels generalizing item record p j d with
  | zero =>
    rw [functionRecord?] at h
    cases h
  | succ levels ih =>
    simp only [functionRecord?, Option.bind_eq_bind, Option.bind_eq_some_iff] at h
    obtain ⟨entries, hentries, fields, hfields, name, hname, arity, -, upvalueCount, -, code, -,
      lines, hlines, constants, hconstants, heq⟩ := h
    cases heq
    have hverified := hv
    rw [toProto] at hp
    split at hp
    · cases hp
    split at hp
    · cases hp
    rename_i hcount
    split at hp
    · cases hp
    rename_i hheader
    dsimp only at hp
    split at hp
    · cases hp
    rename_i ks hks
    cases hp
    rw [Proto.verify] at hv
    split at hv
    · cases hv
    have hlines' : 3 * j + 2 < maxDepth ∧ lines.size ≤ maxItems ∧
        ∀ n ∈ lines.toList, -Number.wordLimit ≤ n ∧ n < Number.wordLimit := by
      obtain ⟨hsize, found, k, hfound, -⟩ := Proto.check_spec (Proto.check_of_verify hverified)
      obtain ⟨⟨op, hop⟩, hc⟩ := decode_spec hfound
      obtain ⟨behind, hf, -⟩ := hc 0 op hop
      have hpos : 0 < code.size := hf.lt_size
      have hsize : lines.size = code.size := hsize
      rcases field_cases hs hentries hfields hlines with rfl | ⟨value, hvalue, hread⟩
      · exact absurd hsize (by simpa using hpos.ne)
      · simp only [Option.bind_eq_some_iff, Option.some.injEq] at hread
        obtain ⟨items, hitems, lines', hall, rfl⟩ := hread
        obtain ⟨hlength, hrange⟩ := lines_of_readAll? hall (by simp)
        rcases sized_of_list? hvalue hitems with rfl | ⟨hdepth, hle, -⟩
        · rw [hlength] at hsize
          exact absurd hsize (by simpa using hpos.ne)
        · exact ⟨hdepth, by simpa [hlength] using hle, hrange⟩
    have hpool : Constant.AllStorable (Constant.canonicalAll ks) ∧
        Constant.AllCompact j (Constant.canonicalAll ks) := by
      rcases field_cases hs hentries hfields hconstants with rfl | ⟨value, hvalue, hread⟩
      · cases hks
        exact ⟨trivial, trivial⟩
      · simp only [Option.bind_eq_some_iff, Option.some.injEq] at hread
        obtain ⟨items, hitems, constants', hall, rfl⟩ := hread
        have hsized : ∀ i ∈ items, Sized limit (3 * j + 3) i := by
          rcases sized_of_list? hvalue hitems with rfl | ⟨-, -, hsized⟩
          · simp
          · exact hsized
        obtain ⟨records, hrecords, hpool⟩ :=
          pool_of_read (fun hs => constant_of_read hlimit ih hs) hsized hall
        obtain rfl : constants' = records := hrecords
        exact hpool _ _ hks hv
    have hname' : ∀ s, (if name.isEmpty then none else some name) = some s → s ≠ "" ∧
        s.utf8ByteSize < Nat.pow 2 64 := by
      intro s hsome
      split at hsome <;> cases hsome
      rename_i hne
      refine ⟨by simpa using hne, ?_⟩
      rcases field_cases hs hentries hfields hname with rfl | ⟨value, hvalue, hread⟩
      · exact absurd rfl hne
      · exact Nat.lt_of_le_of_lt (size_of_text? hvalue hread) hlimit
    simp only [Bool.not_eq_true', Bool.not_eq_false, Bool.and_eq_true, decide_eq_true_eq] at hheader
    obtain ⟨⟨⟨h1, h2⟩, h3⟩, h4⟩ := hheader
    refine ⟨⟨hname', h1, h2, h3, h4, hlines'.2.2, hpool.1⟩, ?_, hlines'.2.1, ?_, hpool.2⟩
    · have : maxDepth = 32 := rfl
      omega
    · have hle := Proto.length_constants_le (Proto.check_of_verify hverified)
      rw [Constant.canonicalAll_eq_map, List.length_map]
      exact Nat.le_trans hle (by decide)

end Reading

theorem head_of_toProto {d : Nat} {record : FunctionRecord} {p : Proto}
    (h : toProto d record = .ok p) :
    p.name = (if record.name.isEmpty then none else some record.name) ∧ p.arity = record.arity ∧
      p.upvalueCount = record.upvalueCount := by
  obtain ⟨_, _, _, _, _, _⟩ := record
  rw [toProto] at h
  split at h
  · cases h
  split at h
  · cases h
  split at h
  · cases h
  dsimp only at h
  split at h
  · cases h
  cases h
  exact ⟨rfl, rfl, rfl⟩

theorem script_of_read {bytes : Array UInt8} {p : Proto} (h : read bytes = .ok p) : ∃ item record,
    Sized bytes.size 1 item ∧ functionRecord? (maxDepth + 1) item = some record ∧
      toProto 0 record = .ok p ∧
      p.verify = .ok () ∧ p.name = none ∧ p.arity = 0 ∧ p.upvalueCount = 0 := by
  unfold read at h
  split at h
  · cases h
  rename_i file hfile
  split at h
  · cases h
  split at h
  · cases h
  split at h
  · cases h
  rename_i main hmain
  split at h
  · cases h
  rename_i hscript
  split at h
  · cases h
  rename_i q hproto
  split at h
  · cases h
  rename_i hv
  cases h
  simp only [Bool.or_eq_true, bne_iff_ne, ne_eq, not_or, Decidable.not_not] at hscript
  obtain ⟨hname, harity, hupvalues⟩ := head_of_toProto hproto
  simp only [fileRecord?, Option.bind_eq_bind, Option.bind_eq_some_iff] at hfile
  obtain ⟨item, hitem, entries, hentries, fields, hfields, magic, _, version, _, main?, hmain?,
    heq⟩ := hfile
  cases heq
  obtain rfl : main? = some main := hmain
  have hsized := sized_of_decode? hitem
  rw [Array.length_toList] at hsized
  rcases field_cases hsized hentries hfields hmain? with hnone | ⟨value, hvalue, hread⟩
  · cases hnone
  · obtain ⟨f?, hreference, heq⟩ := Option.map_eq_some_iff.1 hread
    cases heq
    exact ⟨value, main, hvalue, functionRecord?_of_reference? hreference, hproto,
      hv, by simpa [hscript.1.1] using hname, harity.trans hscript.1.2, hupvalues.trans hscript.2⟩

end Image

/-- **Images have one form.** What is read from an image is written in a form that is read again, as
the same script but for the signs of zeros, and that script is written in the same form. -/
theorem decode_canonical {bytes : Array UInt8} {p : Proto} (hsize : bytes.size < Nat.pow 2 64)
    (h : Image.decode bytes = .ok p) :
    ∃ bytes', Image.encode p = .ok bytes' ∧ Image.decode bytes' = .ok p.canonical ∧
      Image.encode p.canonical = .ok bytes' := by
  unfold Image.decode at h
  split at h
  · cases h
  rename_i hread
  cases h
  obtain ⟨item, record, hsized, hrecord, hproto, hv, hname, harity, hupvalues⟩ :=
    Image.script_of_read hread
  obtain ⟨hstorable, hcompact⟩ := Image.compact_of_read hsize (j := 0) hsized hrecord hproto hv
  have hhead : p.canonical.name = none ∧ p.canonical.arity = 0 ∧ p.canonical.upvalueCount = 0 := by
    obtain ⟨_, _, _, _, _, _⟩ := p
    exact ⟨hname, harity, hupvalues⟩
  obtain ⟨item', hstored⟩ := Image.exists_stored p.canonical hstorable (p.verify_canonical hv)
  obtain ⟨hlevels, hlongest⟩ := Image.bounds_functionRecord p.canonical hcompact hstored.written
  have hencode := Image.encode_eq hstored.written
  refine ⟨_, ?_, hstored.decode hhead.1 hhead.2.1 hhead.2.2 (p.verify_canonical hv) ?_ ?_, hencode⟩
  · exact Image.encode_eq ((Image.functionRecord_canonical p).symm.trans hstored.written)
  · have : (Image.fileItem item').levels = item'.levels + 1 := by
      simp [Image.fileItem, Cbor.levels, Cbor.levelsEntries, Image.field]
    have : Cbor.maxDepth = 32 := rfl
    omega
  · simpa [Image.fileItem, Cbor.longest, Cbor.longestEntries, Image.field, Cbor.ofInt,
      Image.version] using hlongest

/-- An image with a map and an array up to a break, code as an array, a number in a head too long,
and no constants. -/
def looseImage : Array UInt8 :=
  #[0xa3, 0x01, 0x64, 0x5a, 0x49, 0x41, 0x43, 0x02, 0x01, 0x03, 0xbf, 0x04, 0x82, 0x01, 0x19, 0x00,
    0x20, 0x05, 0x9f, 0x01, 0x01, 0xff, 0xff]

theorem decode_canonical_looseImage :
    ∃ p bytes', Image.decode looseImage = .ok p ∧ Image.encode p = .ok bytes' ∧
    Image.decode bytes' = .ok p.canonical ∧ Image.encode p.canonical = .ok bytes' := by
  have hitem : Cbor.decode? looseImage.toList =
    some (Image.fileItem (.map [(.unsigned 4, .array [.unsigned 1, .unsigned 32]),
      (.unsigned 5, .array [.unsigned 1, .unsigned 1])])) := by with_unfolding_all rfl
  have hfile := Image.fileRecord?_eq hitem rfl (by rw [Image.functionRecord?]; with_unfolding_all rfl)
  have hok : (Image.decode looseImage).isOk = true := by
    rw [Image.decode, Image.read, hfile]
    decide +kernel
  cases h : Image.decode looseImage with
  | ok p =>
    obtain ⟨bytes', hbytes'⟩ := decode_canonical (by decide) h
    exact ⟨p, bytes', rfl, hbytes'⟩
  | error e =>
    rw [h] at hok
    cases hok

end Parlance
