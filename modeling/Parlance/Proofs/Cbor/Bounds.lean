/-
  Bounds that hold of every item that is read.
-/
import Mathlib
import Parlance.Cbor.Reader

namespace Parlance.Cbor

/-- What is read of `limit` bytes, inside `depth` arrays and maps. -/
inductive Sized (limit : Nat) : Nat → Cbor → Prop
  | unsigned {depth n} : Sized limit depth (.unsigned n)
  | negative {depth n} : Sized limit depth (.negative n)
  | bytes {depth bs} : Sized limit depth (.bytes bs)
  | text {depth s} (hs : s.utf8ByteSize ≤ limit) : Sized limit depth (.text s)
  | garbled {depth} : Sized limit depth .garbled
  | array {depth items} (hd : depth < maxDepth) (hl : items.length ≤ maxItems)
      (h : ∀ i ∈ items, Sized limit (depth + 1) i) : Sized limit depth (.array items)
  | map {depth entries} (hd : depth < maxDepth)
      (h : ∀ e ∈ entries, Sized limit (depth + 1) (Prod.snd e)) : Sized limit depth (.map entries)
  | tag {depth n item} (h : Sized limit depth item) : Sized limit depth (.tag n item)
  | simple {depth n} : Sized limit depth (.simple n)
  | float {depth x} : Sized limit depth (.float x)

variable {limit depth fuel : Nat} {item : Cbor} {bs rest : List UInt8}

theorem Sized.mono {depth' : Nat} (h : Sized limit depth' item) (hd : depth ≤ depth') :
    Sized limit depth item := by
  induction h generalizing depth with
  | text hs => exact .text hs
  | array hd' hl _ ih => exact .array (by omega) hl fun i hi => ih i hi (by omega)
  | map hd' _ ih => exact .map (by omega) fun e he => ih e he (by omega)
  | tag _ ih => exact .tag (ih hd)
  | _ => constructor

/-! ## Bytes -/

theorem length_of_takeBytes {n : Nat} {taken piece : List UInt8}
    (h : takeBytes n taken bs = some (piece, rest)) :
    piece.length = taken.length + n ∧ rest.length + n = bs.length := by
  fun_induction takeBytes n taken bs with
  | case1 => cases h; simp
  | case2 n taken b bs ih =>
    have := ih h
    simp only [List.length_cons] at this ⊢
    omega
  | case3 => cases h

theorem length_of_readHead {h : Head} (hh : readHead bs = some (h, rest)) :
    rest.length ≤ bs.length := by
  unfold readHead at hh
  split at hh
  · cases hh
  · dsimp only at hh
    split at hh
    · cases hh
      simp
    · split at hh
      · split at hh
        · cases hh
        · rename_i digits bs' htake
          have := (length_of_takeBytes htake).2
          split at hh
          · cases hh
          · cases hh
            simp only [List.length_cons]
            omega
      · split at hh <;> cases hh
        simp

theorem length_of_readPieces {major : Nat} {before pieces : List (List UInt8)}
    (h : readPieces major fuel before bs = some (pieces, rest)) :
    pieces.flatten.length + rest.length ≤ before.flatten.length + bs.length := by
  fun_induction readPieces major fuel before bs with
  | case3 =>
    cases h
    simp only [List.length_flatten, List.map_reverse, List.sum_reverse, List.length_cons]
    omega
  | case6 fuel before b bs _ h' bs1 hhead _ piece bs2 htake ih =>
    have hhead := length_of_readHead hhead
    obtain ⟨hpiece, hrest⟩ := length_of_takeBytes htake
    have := ih h
    simp only [List.flatten_cons, List.length_append, List.length_nil] at this hpiece
    omega
  | _ => cases h

theorem length_of_readString {h : Head} {pieces : List (List UInt8)}
    (hs : readString h fuel bs = some (pieces, rest)) :
    pieces.flatten.length + rest.length ≤ bs.length := by
  unfold readString at hs
  split at hs
  · simpa using length_of_readPieces hs
  · split at hs
    · cases hs
    · rename_i piece bs' htake
      obtain ⟨hpiece, hrest⟩ := length_of_takeBytes htake
      cases hs
      simp only [List.flatten_cons, List.flatten_nil, List.append_nil, List.length_nil] at hpiece ⊢
      omega

theorem utf8ByteSize_foldl (ss : List String) (s : String) :
    (ss.foldl (· ++ ·) s).utf8ByteSize = s.utf8ByteSize + (ss.map String.utf8ByteSize).sum := by
  induction ss generalizing s with
  | nil => simp
  | cons t ss ih =>
    rw [List.foldl_cons, ih, String.utf8ByteSize_append, List.map_cons, List.sum_cons]
    omega

theorem sized_textOf {pieces : List (List UInt8)} (h : pieces.flatten.length ≤ limit) :
    Sized limit depth (textOf pieces) := by
  unfold textOf
  split
  · rename_i ss hss
    have hsizes : ss.map String.utf8ByteSize = pieces.map List.length := by
      clear h
      induction pieces generalizing ss with
      | nil => cases hss; rfl
      | cons p pieces ih =>
        obtain ⟨s, hs, hss⟩ := Option.bind_eq_some_iff.1 (List.mapM_cons.symm.trans hss)
        obtain ⟨ss', hss', hcons⟩ := Option.bind_eq_some_iff.1 hss
        cases hcons
        have hsize : s.utf8ByteSize = p.length := by
          unfold String.fromUTF8? at hs
          split at hs
          · cases hs
            rfl
          · cases hs
        rw [List.map_cons, List.map_cons, ih ss' hss', hsize]
    refine .text ?_
    rw [String.join, utf8ByteSize_foldl, hsizes, ← List.length_flatten]
    simpa using h
  · exact .garbled

/-! ## Items -/

theorem mem_of_mem_pairs {items : List Cbor} {before : List (Cbor × Cbor)} {e : Cbor × Cbor}
    (he : e ∈ pairs before items) : e ∈ before ∨ e.2 ∈ items := by
  fun_induction pairs before items with
  | case1 before key value rest ih =>
    rcases ih he with he | he
    · rcases List.mem_cons.1 he with rfl | he
      · exact .inr (by simp)
      · exact .inl he
    · exact .inr (by simp [he])
  | case2 => exact .inl (List.mem_reverse.1 he)

theorem sized_collection {major count : Nat} {items : List Cbor}
    (h : collection? major items = some item) (hd : depth < maxDepth)
    (hitems : ∀ i ∈ items, Sized limit (depth + 1) i)
    (hlength : items.length ≤ (if major == 4 then 1 else 2) * count)
    (hcount : count ≤ maxItems) : Sized limit depth item := by
  unfold collection? at h
  split at h
  · rename_i hmajor
    cases h
    rw [if_pos hmajor, Nat.one_mul] at hlength
    exact .array hd (Nat.le_trans hlength hcount) hitems
  · split at h <;> cases h
    exact .map hd fun e he => hitems _ ((mem_of_mem_pairs he).resolve_left (by simp))

mutual

/-- An item that is read is such, and no byte is read twice. -/
theorem sized_readItem (fuel : Nat) {depth : Nat} {bs rest : List UInt8} {item : Cbor}
    (h : readItem fuel depth bs = some (item, rest)) (hbs : bs.length ≤ limit) :
    Sized limit depth item ∧ rest.length ≤ bs.length := by
  cases fuel with
  | zero =>
    rw [readItem] at h
    cases h
  | succ fuel =>
    rw [readItem] at h
    split at h
    · cases h
    · rename_i head bs' hhead
      have hbs' := length_of_readHead hhead
      split at h
      · cases h
        exact ⟨.unsigned, hbs'⟩
      · cases h
        exact ⟨.negative, hbs'⟩
      · obtain ⟨⟨pieces, rest'⟩, hs, heq⟩ := Option.map_eq_some_iff.1 h
        cases heq
        have := length_of_readString hs
        exact ⟨.bytes, by omega⟩
      · obtain ⟨⟨pieces, rest'⟩, hs, heq⟩ := Option.map_eq_some_iff.1 h
        cases heq
        have := length_of_readString hs
        exact ⟨sized_textOf (by omega), by omega⟩
      · -- the item inside a tag is as deep as the tag, or one level deeper
        have hinside : ∀ depth', depth ≤ depth' →
          (if maxDepth < depth' then none else (readItem fuel depth' bs').map
            fun (item, bs) => (Cbor.tag head.value item, bs)) = some (item, rest) →
            Sized limit depth item ∧ rest.length ≤ bs.length := by
          intro depth' hle h
          split at h
          · cases h
          · obtain ⟨⟨item', rest'⟩, hitem, heq⟩ := Option.map_eq_some_iff.1 h
            cases heq
            obtain ⟨hsized, hrest⟩ := sized_readItem fuel hitem (by omega)
            exact ⟨.tag (hsized.mono hle), by omega⟩
        refine hinside _ ?_ h
        split
        · split <;> omega
        · exact Nat.le_refl _
      · cases h
        refine ⟨?_, hbs'⟩
        unfold simpleOrFloat
        repeat' split
        all_goals constructor
      · split at h
        · cases h
        · rename_i hdepth
          dsimp only at h
          split at h
          · split at h
            · cases h
            · rename_i items rest' hitems
              obtain ⟨c, hc, heq⟩ := Option.map_eq_some_iff.1 h
              cases heq
              obtain ⟨hsized, hlength, hrest⟩ := sized_readUntilBreak fuel hitems (by omega) (by simp)
              exact ⟨sized_collection hc (by omega) hsized (by simpa using hlength)
                (Nat.le_refl _), by omega⟩
          · split at h
            · cases h
            · rename_i hvalue
              split at h
              · cases h
              · rename_i items rest' hitems
                obtain ⟨c, hc, heq⟩ := Option.map_eq_some_iff.1 h
                cases heq
                obtain ⟨hsized, hlength, hrest⟩ := sized_readItems fuel hitems (by omega) (by simp)
                exact ⟨sized_collection hc (by omega) hsized (by simpa using hlength)
                  (Nat.not_lt.1 hvalue), by omega⟩

theorem sized_readItems (fuel : Nat) {depth count : Nat} {before items : List Cbor}
    {bs rest : List UInt8}
    (h : readItems fuel depth count before bs = some (items, rest)) (hbs : bs.length ≤ limit)
    (hbefore : ∀ i ∈ before, Sized limit depth i) :
    (∀ i ∈ items, Sized limit depth i) ∧ items.length ≤ before.length + count ∧
      rest.length ≤ bs.length := by
  cases count with
  | zero =>
    rw [readItems] at h
    cases h
    exact ⟨by simpa using hbefore, by simp, Nat.le_refl _⟩
  | succ count =>
    cases fuel with
    | zero =>
      rw [readItems] at h
      cases h
    | succ fuel =>
      rw [readItems] at h
      split at h
      · cases h
      · rename_i item bs' hitem
        obtain ⟨hsized, hbs'⟩ := sized_readItem fuel hitem hbs
        obtain ⟨hall, hlength, hrest⟩ :=
          sized_readItems fuel h (by omega) (List.forall_mem_cons.2 ⟨hsized, hbefore⟩)
        simp only [List.length_cons] at hlength
        exact ⟨hall, by omega, by omega⟩

theorem sized_readUntilBreak (fuel : Nat) {depth room : Nat} {before items : List Cbor}
    {bs rest : List UInt8}
    (h : readUntilBreak fuel depth room before bs = some (items, rest)) (hbs : bs.length ≤ limit)
    (hbefore : ∀ i ∈ before, Sized limit depth i) :
    (∀ i ∈ items, Sized limit depth i) ∧ items.length ≤ before.length + room ∧
      rest.length ≤ bs.length := by
  cases fuel with
  | zero =>
    rw [readUntilBreak] at h
    cases h
  | succ fuel =>
    rw [readUntilBreak.eq_def] at h
    dsimp only at h
    split at h
    · cases h
      exact ⟨by simpa using hbefore, by simp, by simp⟩
    · cases hitem : readItem fuel depth bs with
      | none => simp only [hitem, reduceCtorEq] at h
      | some r =>
        obtain ⟨item, bs'⟩ := r
        obtain ⟨hsized, hbs'⟩ := sized_readItem fuel hitem hbs
        simp only [hitem] at h
        cases room with
        | zero => cases h
        | succ room =>
          obtain ⟨hall, hlength, hrest⟩ :=
            sized_readUntilBreak fuel h (by omega) (List.forall_mem_cons.2 ⟨hsized, hbefore⟩)
          simp only [List.length_cons] at hlength
          exact ⟨hall, by omega, by omega⟩

end

/-- Whatever some bytes decode to is sized by their number. -/
theorem sized_of_decode? (h : decode? bs = some item) : Sized bs.length 0 item := by
  unfold decode? at h
  split at h
  · rename_i hread
    cases h
    exact (sized_readItem _ hread (Nat.le_refl _)).1
  · cases h

end Parlance.Cbor
