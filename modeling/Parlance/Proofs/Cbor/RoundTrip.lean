/-
  Reading what was written.
-/
import Parlance.Cbor.Reader
import Parlance.Proofs.Cbor.Floats

namespace Parlance.Cbor

variable {major n : Nat} {rest : List UInt8}

/-! ## Heads -/

theorem takeBytes_append (bs taken rest : List UInt8) :
    takeBytes bs.length taken (bs ++ rest) = some (taken.reverse ++ bs, rest) := by
  induction bs generalizing taken with
  | nil => simp [takeBytes]
  | cons b bs ih =>
    rw [List.length_cons, List.cons_append, takeBytes, ih]
    simp

theorem length_bigEndian (count n : Nat) : (bigEndian count n).length = count := by
  induction count with
  | zero => rfl
  | succ count ih => rw [bigEndian, List.length_cons, ih]

theorem ofBigEndian_bigEndian {count : Nat} (h : n < Nat.pow 256 count) :
    ofBigEndian (bigEndian count n) = n := by
  have hfold : ∀ (count a : Nat), (bigEndian count n).foldl (fun n b => n * 256 + b.toNat) a =
      a * Nat.pow 256 count + n % Nat.pow 256 count := by
    intro count
    induction count with
    | zero => simp [bigEndian, Nat.mod_one]
    | succ count ih =>
      intro a
      rw [bigEndian, List.foldl_cons, ih, UInt8.toNat_ofNat']
      simp only [Nat.pow_eq, Nat.reducePow]
      rw [Nat.pow_succ, Nat.mod_mul]
      ring
  rw [ofBigEndian, hfold, Nat.zero_mul, Nat.zero_add, Nat.mod_eq_of_lt h]

theorem readHead_short (hmajor : major < 8) (hn : n < 24) :
    readHead (UInt8.ofNat (32 * major + n) :: rest) = some (⟨major, n, n⟩, rest) := by
  have hbyte : (UInt8.ofNat (32 * major + n)).toNat = 32 * major + n := by
    rw [UInt8.toNat_ofNat']
    omega
  unfold readHead
  simp only [hbyte]
  rw [show (32 * major + n) / 32 = major by omega, show (32 * major + n) % 32 = n by omega, if_pos hn]

theorem readHead_long {k : Nat} (hmajor : major < 8) (hk : k < 4) (hn : n < Nat.pow 256 (Nat.pow 2 k))
    (hsimple : ¬ (major = 7 ∧ k = 0)) (rest : List UInt8) :
    readHead (UInt8.ofNat (32 * major + (24 + k)) :: (bigEndian (Nat.pow 2 k) n ++ rest)) =
      some (⟨major, 24 + k, n⟩, rest) := by
  have hbyte : (UInt8.ofNat (32 * major + (24 + k))).toNat = 32 * major + (24 + k) := by
    rw [UInt8.toNat_ofNat']
    omega
  have htake : takeBytes (Nat.pow 2 k) [] (bigEndian (Nat.pow 2 k) n ++ rest) =
      some (bigEndian (Nat.pow 2 k) n, rest) := by
    have := takeBytes_append (bigEndian (Nat.pow 2 k) n) [] rest
    rwa [length_bigEndian, List.reverse_nil, List.nil_append] at this
  unfold readHead
  simp only [hbyte]
  rw [show (32 * major + (24 + k)) / 32 = major by omega, show (32 * major + (24 + k)) % 32 =
    24 + k by omega, if_neg (by omega), if_pos (by omega), show 24 + k - 24 = k by omega, htake]
  simp only [ofBigEndian_bigEndian hn]
  rw [if_neg]
  simp only [Bool.and_eq_true, beq_iff_eq, decide_eq_true_eq]
  omega

theorem readHead_head (hmajor : major < 7) (hn : n < Nat.pow 2 64) (rest : List UInt8) :
    ∃ info, info ≠ untilBreak ∧ readHead (head major n ++ rest) = some (⟨major, info, n⟩, rest) := by
  unfold head
  dsimp only
  have hmajor' : major < 8 := by omega
  split
  · rename_i hlt
    exact ⟨n, by unfold untilBreak; omega, readHead_short hmajor' hlt⟩
  · have hlong := fun (k : Nat) (hk : k < 4) (hlt : n < Nat.pow 256 (Nat.pow 2 k)) =>
      readHead_long hmajor' hk hlt (by omega) rest
    split
    · rename_i hlt
      exact ⟨24, by decide, hlong 0 (by decide) hlt⟩
    · split
      · rename_i hlt
        exact ⟨25, by decide, hlong 1 (by decide) hlt⟩
      · split
        · rename_i hlt
          exact ⟨26, by decide, hlong 2 (by decide) hlt⟩
        · exact ⟨27, by decide, hlong 3 (by decide) hn⟩

theorem readHead_encodeFloat (x : Float) (rest : List UInt8) :
    ∃ h, h.major = 7 ∧ readHead (encodeFloat x ++ rest) = some (h, rest) ∧
      simpleOrFloat h = .float x := by
  have hlong := fun (k n : Nat) (hk : k < 4) (hlt : n < Nat.pow 256 (Nat.pow 2 k)) (hne : k ≠ 0) =>
    readHead_long (show 7 < 8 by decide) hk hlt (by omega) rest
  unfold encodeFloat
  split
  · rename_i hshape
    refine ⟨_, rfl, hlong 1 0x7e00 (by decide) (by decide) (by decide), ?_⟩
    rw [← Number.notANumber_of_shape hshape]
    rfl
  · rename_i minus hshape
    refine ⟨_, rfl, hlong 1 (half.infinity + if minus then Nat.pow 2 15 else 0) (by decide) ?_
      (by decide), ?_⟩
    · have hinfinity : half.infinity = 31744 := rfl
      simp only [Nat.pow_eq, Nat.reducePow]
      split <;> omega
    · rw [← Number.infinity_of_shape hshape]
      exact congrArg Cbor.float
        (FloatFormat.value_eq (show 0 < Nat.pow 2 (half.precision - 1) by decide)
          (show 31 < (2 * half.top + 2).toNat by decide) minus)
  · rename_i minus m e hshape
    have hx := Number.parts_of_shape hshape
    split
    · rename_i n hn
      obtain ⟨hlt, hvalue⟩ := FloatFormat.value_bits? FloatFormat.proper_half hx hn
      refine ⟨_, rfl, hlong 1 (n + if minus then Nat.pow 2 15 else 0) (by decide) ?_ (by decide), ?_⟩
      · have hrange : half.range = 32768 := rfl
        simp only [Nat.pow_eq, Nat.reducePow]
        split <;> omega
      · exact congrArg Cbor.float hvalue
    · split
      · rename_i n hn
        obtain ⟨hlt, hvalue⟩ := FloatFormat.value_bits? FloatFormat.proper_single hx hn
        refine ⟨_, rfl, hlong 2 (n + if minus then Nat.pow 2 31 else 0) (by decide) ?_ (by decide), ?_⟩
        · have hrange : single.range = 2147483648 := rfl
          simp only [Nat.pow_eq, Nat.reducePow]
          split <;> omega
        · exact congrArg Cbor.float hvalue
      · refine ⟨_, rfl, hlong 3 x.toBits.toNat (by decide) x.toBits.toNat_lt (by decide), ?_⟩
        refine congrArg Cbor.float ?_
        rw [UInt64.ofNat_toNat, Float.ofBits_toBits]

/-! ## Items -/

mutual

/-- The bytes of an item. -/
def spell : Cbor → List UInt8
  | .unsigned n => head 0 n
  | .negative n => head 1 n
  | .bytes bs => head 2 bs.length ++ bs
  | .text s => head 3 s.utf8ByteSize ++ s.toUTF8.toList
  | .garbled => head 3 0
  | .array items => head 4 items.length ++ spellAll items
  | .map entries => head 5 entries.length ++ spellEntries entries
  | .tag n item => head 6 n ++ spell item
  | .simple n => head 7 n
  | .float x => encodeFloat x

def spellAll : List Cbor → List UInt8
  | [] => []
  | item :: items => spell item ++ spellAll items

def spellEntries : List (Cbor × Cbor) → List UInt8
  | [] => []
  | (key, value) :: entries => spell key ++ (spell value ++ spellEntries entries)

end

mutual

theorem toList_write (item : Cbor) (before : Array UInt8) :
    (write item before).toList = before.toList ++ spell item := by
  cases item with
  | array items => simp [write, spell, toList_writeAll]
  | map entries => simp [write, spell, toList_writeEntries]
  | tag n item => simp [write, spell, toList_write item]
  | _ => simp [write, spell]

theorem toList_writeAll (items : List Cbor) (before : Array UInt8) :
    (writeAll items before).toList = before.toList ++ spellAll items := by
  cases items with
  | nil => simp [writeAll, spellAll]
  | cons item items => simp [writeAll, spellAll, toList_writeAll items, toList_write item]

theorem toList_writeEntries (entries : List (Cbor × Cbor)) (before : Array UInt8) :
    (writeEntries entries before).toList = before.toList ++ spellEntries entries := by
  cases entries with
  | nil => simp [writeEntries, spellEntries]
  | cons entry entries =>
    obtain ⟨key, value⟩ := entry
    simp [writeEntries, spellEntries, toList_writeEntries entries, toList_write key,
      toList_write value]

end

mutual

/-- How deep arrays and maps nest. -/
def levels : Cbor → Nat
  | .array items => levelsAll items + 1
  | .map entries => levelsEntries entries + 1
  | .tag _ item => levels item
  | _ => 0

def levelsAll : List Cbor → Nat
  | [] => 0
  | item :: items => max (levels item) (levelsAll items)

def levelsEntries : List (Cbor × Cbor) → Nat
  | [] => 0
  | (key, value) :: entries => max (max (levels key) (levels value)) (levelsEntries entries)

end

mutual

/-- Numbers and lengths fit in heads, and the readers take as many items. -/
def Writable : Cbor → Prop
  | .unsigned n | .negative n => n < Nat.pow 2 64
  | .bytes bs => bs.length < Nat.pow 2 64
  | .text s => s.utf8ByteSize < Nat.pow 2 64
  | .array items => items.length ≤ maxItems ∧ AllWritable items
  | .map entries => entries.length ≤ maxItems ∧ EntriesWritable entries
  | .simple n => n < 24
  | .float _ => True
  | .garbled | .tag .. => False

def AllWritable : List Cbor → Prop
  | [] => True
  | item :: items => Writable item ∧ AllWritable items

def EntriesWritable : List (Cbor × Cbor) → Prop
  | [] => True
  | (key, value) :: entries => Writable key ∧ Writable value ∧ EntriesWritable entries

end

/-- Keys and values in a row. -/
def flat (entries : List (Cbor × Cbor)) : List Cbor := entries.flatMap fun e => [e.1, e.2]

theorem length_flat (entries : List (Cbor × Cbor)) : (flat entries).length = 2 * entries.length := by
  induction entries with
  | nil => rfl
  | cons e entries ih =>
    rw [flat, List.flatMap_cons, List.length_append, ← flat, ih, List.length_cons]
    simp only [List.length_cons, List.length_nil]
    omega

theorem pairs_flat (entries before : List (Cbor × Cbor)) :
    pairs before (flat entries) = before.reverse ++ entries := by
  induction entries generalizing before with
  | nil => simp [flat, pairs]
  | cons e entries ih =>
    rw [flat, List.flatMap_cons, List.cons_append, List.cons_append, List.nil_append, pairs]
    rw [← flat, ih]
    simp

theorem toList_eq_data (bs : ByteArray) : bs.toList = bs.data.toList := by
  have hloop : ∀ (k i : Nat) (before : List UInt8), bs.size - i = k →
      ByteArray.toList.loop bs i before = before.reverse ++ bs.data.toList.drop i := by
    intro k
    induction k with
    | zero =>
      intro i before hk
      rw [ByteArray.toList.loop, if_neg (by omega), List.drop_eq_nil_of_le, List.append_nil]
      rw [Array.length_toList]
      exact Nat.sub_eq_zero_iff_le.1 hk
    | succ k ih =>
      intro i before hk
      have hi : i < bs.size := Nat.lt_of_sub_eq_succ hk
      have hget : bs.get! i = bs.data.toList[i] := by
        rw [Array.getElem_toList]
        exact getElem!_pos bs.data i hi
      rw [ByteArray.toList.loop, if_pos hi, ih (i + 1) _ (by omega), List.reverse_cons,
        List.append_assoc, hget, List.singleton_append, ← List.drop_eq_getElem_cons]
  rw [ByteArray.toList, hloop _ 0 [] rfl]
  simp

theorem length_toUTF8 (s : String) : s.toUTF8.toList.length = s.utf8ByteSize := by
  rw [toList_eq_data, Array.length_toList]
  rfl

theorem textOf_toUTF8 (s : String) : textOf [s.toUTF8.toList] = .text s := by
  have hfrom : String.fromUTF8? ⟨s.toUTF8.toList.toArray⟩ = some s := by
    rw [toList_eq_data, Array.toArray_toList]
    exact dif_pos s.isValidUTF8
  simp only [textOf, List.mapM_cons, List.mapM_nil, hfrom]
  simp [String.join]

theorem length_head_pos (major n : Nat) : 0 < (head major n).length := by
  unfold head
  dsimp only
  split_ifs <;> simp

theorem length_spell_pos (item : Cbor) : 0 < (spell item).length := by
  cases item with
  | float x =>
    rw [spell]
    unfold encodeFloat
    split
    · simp
    · simp
    · split
      · simp
      · split <;> simp
  | _ =>
    simp only [spell, List.length_append]
    have := length_head_pos
    first
      | exact this _ _
      | exact Nat.lt_of_lt_of_le (this _ _) (Nat.le_add_right _ _)

theorem readString_append {h : Head} (hinfo : h.info ≠ untilBreak) {bs : List UInt8}
    (hlength : h.value = bs.length)
    (fuel : Nat) (rest : List UInt8) : readString h fuel (bs ++ rest) = some ([bs], rest) := by
  have htake := takeBytes_append bs [] rest
  rw [readString, if_neg (by simpa using hinfo), hlength, htake]
  rfl

mutual

/-- An item is read back from its bytes, whatever follows them. -/
theorem readItem_spell (item : Cbor) (hw : item.Writable) (rest : List UInt8) (depth fuel : Nat)
    (hdepth : depth + item.levels ≤ maxDepth) (hfuel : 3 * item.spell.length ≤ fuel + 2) :
    readItem fuel depth (item.spell ++ rest) = some (item, rest) := by
  have hpos := length_spell_pos item
  obtain ⟨fuel, rfl⟩ : ∃ k, fuel = k + 1 := ⟨fuel - 1, by omega⟩
  cases item with
  | unsigned n =>
    obtain ⟨info, -, hhead⟩ := readHead_head (by decide : 0 < 7) hw rest
    rw [readItem, spell, hhead]
    rfl
  | negative n =>
    obtain ⟨info, -, hhead⟩ := readHead_head (by decide : 1 < 7) hw rest
    rw [readItem, spell, hhead]
    rfl
  | bytes bs =>
    obtain ⟨info, hinfo, hhead⟩ := readHead_head (by decide : 2 < 7) hw (bs ++ rest)
    rw [readItem, spell, List.append_assoc, hhead]
    simp only
    rw [readString_append hinfo rfl]
    simp
  | text s =>
    obtain ⟨info, hinfo, hhead⟩ := readHead_head (by decide : 3 < 7) hw (s.toUTF8.toList ++ rest)
    rw [readItem, spell, List.append_assoc, hhead]
    simp only
    rw [readString_append hinfo (length_toUTF8 s).symm, Option.map_some, textOf_toUTF8]
  | garbled => exact hw.elim
  | array items =>
    rw [levels] at hdepth
    rw [spell, List.length_append] at hfuel
    have hlt : items.length < Nat.pow 2 64 := Nat.lt_of_le_of_lt hw.1 (by decide)
    have hhead' := length_head_pos 4 items.length
    obtain ⟨info, hinfo, hhead⟩ := readHead_head (by decide : 4 < 7) hlt (spellAll items ++ rest)
    have hitems := readItems_spellAll items hw.2 [] rest (depth + 1) fuel (by omega) (by omega)
    rw [readItem, spell, List.append_assoc, hhead]
    simp only
    rw [if_neg (by omega), if_neg (by simpa using hinfo), if_neg (Nat.not_lt.2 hw.1)]
    simp only [beq_self_eq_true, if_true, Nat.one_mul]
    rw [hitems]
    rfl
  | map entries =>
    rw [levels] at hdepth
    rw [spell, List.length_append] at hfuel
    have hlt : entries.length < Nat.pow 2 64 := Nat.lt_of_le_of_lt hw.1 (by decide)
    have hhead' := length_head_pos 5 entries.length
    obtain ⟨info, hinfo, hhead⟩ := readHead_head (by decide : 5 < 7) hlt (spellEntries entries ++ rest)
    have hitems := readItems_spellEntries entries hw.2 [] rest (depth + 1) fuel (by omega) (by omega)
    rw [readItem, spell, List.append_assoc, hhead]
    simp only
    rw [if_neg (by omega), if_neg (by simpa using hinfo), if_neg (Nat.not_lt.2 hw.1)]
    simp only [Nat.reduceBEq, Bool.false_eq_true, if_false]
    rw [hitems]
    simp [collection?, length_flat, pairs_flat]
  | tag n item => exact hw.elim
  | simple n =>
    have hn : n < 24 := hw
    rw [readItem, spell, head, if_pos hn, List.singleton_append, readHead_short (by decide) hn]
    simp only [simpleOrFloat]
    rw [if_neg (by simp; omega), if_neg (by simp; omega), if_neg (by simp; omega)]
  | float x =>
    obtain ⟨h, hmajor, hhead, hfloat⟩ := readHead_encodeFloat x rest
    rw [readItem, spell, hhead]
    simp only [hmajor, hfloat]

theorem readItems_spellAll (items : List Cbor) (hw : AllWritable items) (before : List Cbor)
    (rest : List UInt8)
    (depth fuel : Nat) (hdepth : depth + levelsAll items ≤ maxDepth)
    (hfuel : 3 * (spellAll items).length ≤ fuel) :
    readItems fuel depth items.length before (spellAll items ++ rest) =
      some (before.reverse ++ items, rest) := by
  cases items with
  | nil => simp [readItems, spellAll]
  | cons item items =>
    have hpos := length_spell_pos item
    rw [spellAll, List.length_append] at hfuel
    rw [levelsAll] at hdepth
    obtain ⟨fuel, rfl⟩ : ∃ k, fuel = k + 1 := ⟨fuel - 1, by omega⟩
    have hitem := readItem_spell item hw.1 (spellAll items ++ rest) depth fuel (by omega) (by omega)
    have hitems := readItems_spellAll items hw.2 (item :: before) rest depth fuel (by omega) (by omega)
    rw [List.length_cons, readItems, spellAll, List.append_assoc, hitem]
    simp only
    rw [hitems]
    simp

theorem readItems_spellEntries (entries : List (Cbor × Cbor)) (hw : EntriesWritable entries)
    (before : List Cbor)
    (rest : List UInt8) (depth fuel : Nat) (hdepth : depth + levelsEntries entries ≤ maxDepth)
    (hfuel : 3 * (spellEntries entries).length ≤ fuel) :
    readItems fuel depth (2 * entries.length) before (spellEntries entries ++ rest) =
      some (before.reverse ++ flat entries, rest) := by
  cases entries with
  | nil => simp [readItems, spellEntries, flat]
  | cons entry entries =>
    obtain ⟨key, value⟩ := entry
    have hkey := length_spell_pos key
    have hvalue := length_spell_pos value
    rw [spellEntries, List.length_append, List.length_append] at hfuel
    rw [levelsEntries] at hdepth
    obtain ⟨fuel, rfl⟩ : ∃ k, fuel = k + 1 + 1 := ⟨fuel - 2, by omega⟩
    have hfirst := readItem_spell key hw.1 (spell value ++ (spellEntries entries ++ rest)) depth
      (fuel + 1) (by omega) (by omega)
    have hsecond :=
      readItem_spell value hw.2.1 (spellEntries entries ++ rest) depth fuel (by omega) (by omega)
    have hentries := readItems_spellEntries entries hw.2.2 (value :: key :: before) rest depth fuel
      (by omega) (by omega)
    rw [List.length_cons, Nat.mul_succ, readItems, spellEntries, List.append_assoc,
      List.append_assoc, hfirst]
    simp only
    rw [readItems, hsecond]
    simp only
    rw [hentries]
    simp [flat]

end

/-- **A writable item is what its bytes are.** -/
theorem decode?_encode {item : Cbor} (hw : item.Writable) (hlevels : item.levels ≤ maxDepth) :
    decode? (encode item).toList = some item := by
  have hspell : (encode item).toList = item.spell := by simp [encode, toList_write]
  have hread := readItem_spell item hw [] 0 (3 * item.spell.length + 3) (by omega) (by omega)
  rw [List.append_nil] at hread
  rw [decode?, hspell, hread]

end Parlance.Cbor
