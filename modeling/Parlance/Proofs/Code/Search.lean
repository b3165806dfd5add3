/-
  What the search for heights decides.
-/
import Parlance.Proofs.Code.Decoding

namespace Parlance

/-! ## Heights that fit -/

namespace Chunk

variable (c : Chunk Constant)

/-- Control can go from the instruction at `o` to `d`: it jumps there, or `d` is behind it. -/
def Leads (o : Nat) (d : Int) : Prop :=
  ∃ op, c.op? o = some op ∧ (isJump op = true ∧ d = c.jumpTarget op o ∨
    op.falls = true ∧ ∃ size, instructionLength Constant.pool c o = .ok size ∧ d = c.behind o size)

/-- The offsets that control reaches from the start. -/
inductive Reached : Int → Prop
  | start : Reached 0
  | next {o : Nat} {d : Int} (h : Reached o) (hd : c.Leads o d) : Reached d

/-- What the instruction at `o` leaves of `x` values, as `count` counts them. -/
def leaves (count : Int → Int) (op : Op) (o : Nat) (x : Int) : Int :=
  count (x - c.pops op o + c.pushes op o)

/-- Heights of the frame where control reaches: each instruction finds its values above the callee
and its slots below the height, and control stays in the code and finds what the instruction
leaves. -/
structure Levels (count : Int → Int) (arity : Int) (level : Int → Int) : Prop where
  start : level 0 = count (1 + arity)
  pops {o : Nat} {op : Op} (h : c.Reached o) (hop : c.op? o = some op) :
  1 ≤ count (level o - c.pops op o)
  slot {o : Nat} {op : Op} (h : c.Reached o) (hop : c.op? o = some op)
  (hslot : op = .getLocal ∨ op = .setLocal) :
    (c.byte (o + 1) : Int) < level o
  captures {o : Nat} {size : Int} (h : c.Reached o) (hop : c.op? o = some .closure)
    (hsize : instructionLength Constant.pool c o = .ok size) :
    ∀ x ∈ c.captures o (c.behind o size), x.1 = 1 → (x.2 : Int) < c.leaves count .closure o (level o)
  inside {o : Nat} {d : Int} (h : c.Reached o) (hd : c.Leads o d) : 0 ≤ d ∧ d < c.code.size
  next {o : Nat} {op : Op} {d : Int} (h : c.Reached o) (hop : c.op? o = some op) (hd : c.Leads o d) :
    level d = c.leaves count op o (level o)

variable {c} {upvalueCount : Int} {o : Nat} {op : Op} {behind : Int}

theorem Found.leads_iff (hf : c.Found upvalueCount o op behind) {d : Int} :
    c.Leads o d ↔ d ∈ successors c op o behind := by
  obtain ⟨size, hsize, rfl⟩ := hf.length
  simp only [Leads, hf.op_eq, hsize, Option.some.injEq, Except.ok.injEq, exists_eq_left']
  cases op <;> simp [isJump, Op.falls, successors]

theorem Found.unique (hf : c.Found upvalueCount o op behind) {op' : Op} {behind' : Int}
    (hf' : c.Found upvalueCount o op' behind') : op = op' ∧ behind = behind' := by
  obtain ⟨size, hsize, rfl⟩ := hf.length
  obtain ⟨size', hsize', rfl⟩ := hf'.length
  obtain rfl := Except.ok.inj (hsize.symm.trans hsize')
  exact ⟨Option.some.inj (hf.op_eq.symm.trans hf'.op_eq), rfl⟩

theorem checkSlots_eq_ok_iff {height after : Int} : checkSlots c op o behind height after = .ok () ↔
    (op = .getLocal ∨ op = .setLocal → (c.byte (o + 1) : Int) < height) ∧
      (op = .closure → ∀ x ∈ c.captures o behind, x.1 = 1 → (x.2 : Int) < after) := by
  cases op with
  | closure =>
    simp only [checkSlots]
    split
    · rename_i kind slot hfind
      have hmem := List.mem_of_find?_eq_some hfind
      have hbad := List.find?_some hfind
      simp only [Bool.and_eq_true, beq_iff_eq, decide_eq_true_eq] at hbad
      simp only [reduceCtorEq, false_iff, not_and]
      exact fun _ h => absurd (h trivial _ hmem hbad.1) (Int.not_lt.2 hbad.2)
    · rename_i hfind
      simpa [List.find?_eq_none] using hfind
  | _ => simp [checkSlots]

end Chunk

/-! ## The search -/

namespace Heights

variable {n : Nat} {c : Chunk Constant} {upvalueCount arity : Int} {found : Array (Nat × Op)}
  {count : Int → Int} {pending : Nat → Prop}
  {k k' k'' : Heights} {o : Nat} {op : Op} {behind x y d : Int}

/-- How many offsets are not reached yet. -/
def unknown (k : Heights) : Nat := k.known.countP Option.isNone

/-- How many offsets there are to follow at most. -/
def room (k : Heights) : Nat := k.unknown + k.work.length

/-- The heights noted in `k` are noted in `k'`. -/
def Grows (k k' : Heights) : Prop :=
  ∀ (o : Nat) (x : Int), k.known[o]? = some (some x) → k'.known[o]? = some (some x)

theorem Grows.refl (k : Heights) : k.Grows k := fun _ _ h => h

theorem Grows.trans (h : k.Grows k') (h' : k'.Grows k'') : k.Grows k'' :=
  fun o x hx => h' o x (h o x hx)

/-- The height `y` is noted at `n`, where there was none. -/
structure Notes (k : Heights) (n : Nat) (y : Int) (k' : Heights) : Prop where
  new : k.known[n]? = some none
  size_eq : k'.known.size = k.known.size
  known (o : Nat) : k'.known[o]? = if o = n then some (some y) else k.known[o]?
  work : k'.work = n :: k.work
  unknown : k'.unknown + 1 = k.unknown

theorem Notes.grows {y : Int} (h : k.Notes n y k') : k.Grows k' := fun o x hx => by
  rw [h.known]
  split
  · rename_i ho
    rw [ho, h.new] at hx
    cases hx
  · exact hx

/-- What is noted is new or was noted before. -/
theorem Notes.cases (h : k.Notes n y k') (hx : k'.known[o]? = some (some x)) :
    (o = n ∧ x = y) ∨ k.known[o]? = some (some x) := by
  rw [h.known] at hx
  split at hx
  · exact .inl ⟨‹_›, by cases hx; rfl⟩
  · exact .inr hx

theorem Notes.room {n : Nat} {y : Int} (h : k.Notes n y k') : k'.room = k.room := by
  have := h.unknown
  simp only [Heights.room, h.work, List.length_cons]
  omega

theorem reach_spec {d y : Int} (h : k.reach d y = .ok k') :
    ∃ n : Nat, d = n ∧ n < k.known.size ∧ k'.known[n]? = some (some y) ∧
    (k' = k ∨ k.Notes n y k') := by
  unfold Heights.reach at h
  split at h
  · cases h
  · rename_i hnone
    split at hnone
    · rename_i hnonneg
      obtain ⟨n, rfl⟩ := Int.eq_ofNat_of_zero_le hnonneg
      simp only [Int.toNat_natCast] at hnone h
      obtain ⟨hlt, hget⟩ := Array.getElem?_eq_some_iff.1 hnone
      cases h
      have hset : ∀ o : Nat, (k.known.setIfInBounds n (some y))[o]? = if o =
          n then some (some y) else k.known[o]? := by
        intro o
        rw [Array.getElem?_setIfInBounds]
        by_cases ho : n = o
        · subst ho
          simp [hlt]
        · simp [ho, Ne.symm ho]
      have hpos : 0 < k.unknown := Array.countP_pos_iff.2 ⟨none, hget ▸ Array.getElem_mem hlt, rfl⟩
      have hcount : unknown ⟨k.known.setIfInBounds n (some y), n :: k.work⟩ + 1 = k.unknown := by
        unfold unknown at hpos ⊢
        simp only [Array.setIfInBounds_def, dif_pos hlt, Array.countP_set hlt, hget]
        simp
        omega
      exact ⟨n, rfl, hlt, by simp [hset], .inr ⟨hnone, by simp, hset, rfl, hcount⟩⟩
    · cases hnone
  · rename_i other hother
    split at hother
    · rename_i hnonneg
      obtain ⟨n, rfl⟩ := Int.eq_ofNat_of_zero_le hnonneg
      split at h
      · rename_i heq
        obtain rfl := eq_of_beq heq
        cases h
        exact ⟨n, rfl, (Array.getElem?_eq_some_iff.1 hother).1, hother, .inl rfl⟩
      · cases h
    · cases hother

theorem reach_start (h : Heights.reach ⟨Array.replicate c.code.size none, []⟩ 0 y = .ok k) :
    Notes ⟨Array.replicate c.code.size none, []⟩ 0 y k ∧
      ∀ {o : Nat} {x : Int}, k.known[o]? = some (some x) → o = 0 ∧ x = y := by
  have hnone : ∀ (o : Nat) (x : Int), (Array.replicate c.code.size (none : Option Int))[o]? ≠ some
      (some x) := by
    simp [Array.getElem?_replicate]
  obtain ⟨n, hn, -, hknown, rfl | hnotes⟩ := reach_spec h
  · exact absurd hknown (hnone _ _)
  · obtain rfl : n = 0 := by omega
    exact ⟨hnotes, fun hx => (hnotes.cases hx).resolve_right (hnone _ _)⟩

theorem known_reachAll (ds : List Int) (h : ds.foldlM (fun k d => k.reach d y) k = .ok k')
    (hx : k'.known[o]? = some (some x)) : x = y ∨ k.known[o]? = some (some x) := by
  induction ds generalizing k with
  | nil =>
    cases h
    exact .inr hx
  | cons d ds ih =>
    rw [List.foldlM_cons] at h
    cases hreach : k.reach d y with
    | error e => simp [hreach, bind, Except.bind] at h
    | ok k1 =>
      simp only [hreach, bind, Except.bind] at h
      obtain rfl | hx := ih h
      · exact .inl rfl
      · obtain ⟨n, -, -, -, rfl | hnotes⟩ := reach_spec hreach
        · exact .inr hx
        · exact (hnotes.cases hx).imp_left And.right

/-- The instructions found lead to each other. -/
def Closed (c : Chunk Constant) (upvalueCount : Int) (found : Array (Nat × Op)) : Prop :=
  ∀ o op, (o, op) ∈ found → ∃ behind, c.Found upvalueCount o op behind ∧
    ∀ d ∈ successors c op o behind, c.code.size ≤ d ∨ ∃ (n : Nat) (op' : Op), d = n ∧ (n, op') ∈ found

theorem visit_eq_ok_iff (hf : c.Found upvalueCount o op behind) (hx : k.known[o]? = some (some x)) :
    Heights.visit c k o = .ok k' ↔ 1 ≤ c.count (x - c.pops op o) ∧
      checkSlots c op o behind x (c.leaves c.count op o x) = .ok () ∧
      (successors c op o behind).foldlM (fun k d => k.reach d (c.leaves c.count op o x))
        k = .ok k' := by
  obtain ⟨size, hsize, hbehind⟩ := hf.length
  have hop : (c.code[o]?).bind Op.ofByte? = some op := hf.op_eq
  unfold Heights.visit
  simp only [hx, Option.getD_some, hop, hsize, ← hbehind]
  rw [show c.count (x - (stackEffect op (c.byte (o + 1))).1) = c.count (x - c.pops op o) from rfl,
    show c.count (x - (stackEffect op (c.byte (o + 1))).1 + (stackEffect op (c.byte (o + 1))).2) =
      c.leaves c.count op o x from rfl]
  split
  · rename_i hlt
    simp only [reduceCtorEq, false_iff, not_and]
    exact fun h => absurd hlt (by omega)
  · rename_i hlt
    rw [← Int.not_lt, and_iff_right hlt]
    cases checkSlots c op o behind x (c.leaves c.count op o x) with
    | error e => simp [bind, Except.bind]
    | ok u => simp [bind, Except.bind]

theorem exists_reach (hd : 0 ≤ d) (hlt : d < k.known.size)
    (hsame : ∀ x, k.known[d.toNat]? = some (some x) → x = y) : ∃ k', k.reach d y = .ok k' := by
  obtain ⟨n, rfl⟩ := Int.eq_ofNat_of_zero_le hd
  have hn : n < k.known.size := by omega
  simp only [Int.toNat_natCast] at hsame
  unfold Heights.reach
  simp only [if_pos hd, Int.toNat_natCast]
  cases hx : k.known[n] with
  | none => exact ⟨_, by rw [Array.getElem?_eq_getElem hn, hx]⟩
  | some x =>
    obtain rfl := hsame x (by rw [Array.getElem?_eq_getElem hn, hx])
    exact ⟨k, by simp [Array.getElem?_eq_getElem hn, hx]⟩

theorem exists_reachAll (ds : List Int) (hds : ∀ d ∈ ds, 0 ≤ d ∧ d < k.known.size)
    (hsame : ∀ d ∈ ds, ∀ x, k.known[d.toNat]? = some (some x) → x = y) :
    ∃ k', ds.foldlM (fun k d => k.reach d y) k = .ok k' := by
  induction ds generalizing k with
  | nil => exact ⟨k, rfl⟩
  | cons d ds ih =>
    obtain ⟨hd, hlt⟩ := hds d List.mem_cons_self
    obtain ⟨k1, hk1⟩ := exists_reach hd hlt (hsame d List.mem_cons_self)
    have hkept : k1.known.size = k.known.size ∧ ∀ d ∈ ds, ∀ x, k1.known[d.toNat]? = some (some x) →
        x = y := by
      obtain ⟨n, -, -, -, rfl | hnotes⟩ := reach_spec hk1
      · exact ⟨rfl, fun d hd => hsame d (List.mem_cons_of_mem _ hd)⟩
      · refine ⟨hnotes.size_eq, fun d hd x hx => ?_⟩
        rw [hnotes.known] at hx
        split at hx
        · cases hx
          rfl
        · exact hsame d (List.mem_cons_of_mem _ hd) x hx
    obtain ⟨k', hk'⟩ := ih (fun d hd => hkept.1 ▸ hds d (List.mem_cons_of_mem _ hd)) hkept.2
    exact ⟨k', by rw [List.foldlM_cons, hk1]; exact hk'⟩

/-- The two ways of counting: as the search does, or exactly, if the arity is far from the ends of a
word. -/
def Counts (c : Chunk Constant) (arity : Int) (count : Int → Int) : Prop :=
  count = c.count ∨ count = id ∧ arity.natAbs ≤ 2305843009213693952

/-- The search so far: what is noted at an offset is the only height that can fit there, and
instructions were followed, unless they are in the work or pending. -/
structure Swept (c : Chunk Constant) (upvalueCount arity : Int) (found : Array (Nat × Op))
    (count : Int → Int) (pending : Nat → Prop) (k : Heights) : Prop where
  size_eq : k.known.size = c.code.size
  start : k.known[0]? = some (some (count (1 + arity)))
  noted {o : Nat} {x : Int} (hx : k.known[o]? = some (some x)) :
    (∃ op, (o, op) ∈ found) ∧ c.Reached o ∧ ∀ level, c.Levels count arity level → level o = x
  low {o : Nat} {x : Int} (hx : k.known[o]? = some (some x))
    (ha : arity.natAbs ≤ 2305843009213693952) :
    -2305843009213693952 ≤ x ∧ x + k.unknown ≤ 2305843009213693953 + c.code.size
  work : ∀ o ∈ k.work, ∃ x : Int, k.known[o]? = some (some x)
  done {o : Nat} {x : Int} (hx : k.known[o]? = some (some x)) (hwork : o ∉ k.work)
  (hpending : ¬ pending o) {op : Op} {behind : Int}
    (hf : c.Found upvalueCount o op behind) : 1 ≤ count (x - c.pops op o) ∧
      checkSlots c op o behind x (c.leaves count op o x) = .ok () ∧
      ∀ d ∈ successors c op o behind, ∃ n : Nat, d = n ∧
      k.known[n]? = some (some (c.leaves count op o x))

namespace Swept

section

variable (hk : Swept c upvalueCount arity found count pending k)
include hk

/-- Both ways of counting agree on what an instruction takes and leaves. -/
theorem count_eq (hcount : Counts c arity count) (hx : k.known[o]? = some (some x)) {z : Int}
    (hz : x - 256 ≤ z) (hz' : z ≤ x + 1) : count z = c.count z := by
  obtain rfl | ⟨rfl, ha⟩ := hcount
  · rfl
  · have hlow := hk.low hx ha
    exact (if_pos (by omega)).symm

theorem leaves_eq (hcount : Counts c arity count) (hx : k.known[o]? = some (some x)) (op : Op) :
    c.count (x - c.pops op o) = count (x - c.pops op o) ∧
      c.leaves c.count op o x = c.leaves count op o x := by
  have hpops := c.pops_le op o
  have hpushes := c.pushes_le op o
  exact ⟨(hk.count_eq hcount hx (by omega) (by omega)).symm,
    (hk.count_eq hcount hx (by omega) (by omega)).symm⟩

theorem reach (h : k.reach d y = .ok k') (hd : c.Reached d)
    (hforced : ∀ level, c.Levels count arity level → level d = y)
    (hfound : c.code.size ≤ d ∨ ∃ (n : Nat) (op : Op), d = n ∧ (n, op) ∈ found)
    (hlow : arity.natAbs ≤ 2305843009213693952 → -2305843009213693952 ≤ y ∧
      y + k.unknown ≤ 2305843009213693954 + c.code.size) :
    Swept c upvalueCount arity found count pending k' ∧ k.Grows k' ∧ k'.room = k.room ∧
      k'.unknown ≤ k.unknown ∧ ∃ n : Nat, d = n ∧ k'.known[n]? = some (some y) := by
  obtain ⟨n, rfl, hlt, hknown, rfl | hnotes⟩ := reach_spec h
  · exact ⟨hk, Grows.refl _, rfl, Nat.le_refl _, n, rfl, hknown⟩
  · obtain ⟨_, op, heq, hmem⟩ := hfound.resolve_left fun hle => by rw [hk.size_eq] at hlt; omega
    obtain rfl := Int.ofNat_inj.1 heq
    have hunknown := hnotes.unknown
    refine ⟨⟨hnotes.size_eq.trans hk.size_eq, hnotes.grows _ _ hk.start, fun hx => ?_,
      fun hx ha => ?_, fun o ho => ?_, fun {o x} hx hwork hpending {op behind} hf => ?_⟩,
      hnotes.grows, hnotes.room, by omega, n, rfl, hknown⟩
    · obtain ⟨rfl, rfl⟩ | hx := hnotes.cases hx
      · exact ⟨⟨op, hmem⟩, hd, hforced⟩
      · exact hk.noted hx
    · obtain ⟨rfl, rfl⟩ | hx := hnotes.cases hx
      · have := hlow ha
        omega
      · have := hk.low hx ha
        omega
    · rcases List.mem_cons.1 (hnotes.work ▸ ho) with rfl | ho
      · exact ⟨y, hknown⟩
      · exact (hk.work o ho).imp fun x hx => hnotes.grows _ _ hx
    · simp only [hnotes.work, List.mem_cons, not_or] at hwork
      obtain ⟨rfl, -⟩ | hx := hnotes.cases hx
      · exact absurd rfl hwork.1
      · obtain ⟨hpops, hslots, hnext⟩ := hk.done hx hwork.2 hpending hf
        refine ⟨hpops, hslots, fun d hd => ?_⟩
        obtain ⟨n, hn, hknown⟩ := hnext d hd
        exact ⟨n, hn, hnotes.grows _ _ hknown⟩

theorem reachAll (ds : List Int) (h : ds.foldlM (fun k d => k.reach d y) k = .ok k')
    (hds : ∀ d ∈ ds, c.Reached d)
    (hforced : ∀ d ∈ ds, ∀ level, c.Levels count arity level → level d = y)
    (hfound : ∀ d ∈ ds, c.code.size ≤ d ∨ ∃ (n : Nat) (op : Op), d = n ∧ (n, op) ∈ found)
    (hlow : arity.natAbs ≤ 2305843009213693952 → -2305843009213693952 ≤ y ∧
      y + k.unknown ≤ 2305843009213693954 + c.code.size) :
    Swept c upvalueCount arity found count pending k' ∧ k.Grows k' ∧ k'.room = k.room ∧
      ∀ d ∈ ds, ∃ n : Nat, d = n ∧ k'.known[n]? = some (some y) := by
  induction ds generalizing k with
  | nil =>
    cases h
    exact ⟨hk, Grows.refl _, rfl, by simp⟩
  | cons d ds ih =>
    rw [List.foldlM_cons] at h
    cases hreach : k.reach d y with
    | error e => simp [hreach, bind, Except.bind] at h
    | ok k1 =>
      simp only [hreach, bind, Except.bind] at h
      rw [List.forall_mem_cons] at hds hforced hfound
      obtain ⟨hk1, hgrows, hroom, hunknown, n, hn, hknown⟩ :=
        hk.reach hreach hds.1 hforced.1 hfound.1 hlow
      obtain ⟨hk', hgrows', hroom', hall⟩ := ih hk1 h hds.2 hforced.2 hfound.2 fun ha => by
        have := hlow ha
        omega
      exact ⟨hk', hgrows.trans hgrows', hroom'.trans hroom,
        List.forall_mem_cons.2 ⟨⟨n, hn, hgrows' _ _ hknown⟩, hall⟩⟩

end

section

variable (hk : Swept c upvalueCount arity found count (fun _ => False) k)
  (hc : Closed c upvalueCount found)
include hk hc

/-- **One turn**: any offset of the work is followed. -/
theorem turn (hcount : Counts c arity count) {l r : List Nat} (hwork : k.work = l ++ o :: r)
    (h : Heights.visit c ⟨k.known, l ++ r⟩ o = .ok k') :
    Swept c upvalueCount arity found count (fun _ => False) k' ∧ k'.room + 1 = k.room := by
  obtain ⟨x, hx⟩ := hk.work o (by simp [hwork])
  obtain ⟨⟨op, hmem⟩, hreached, hforced⟩ := hk.noted hx
  obtain ⟨behind, hf, hnext⟩ := hc o op hmem
  obtain ⟨hpopsEq, hleavesEq⟩ := hk.leaves_eq hcount hx op
  obtain ⟨hpops, hslots, hall⟩ := (visit_eq_ok_iff (k := ⟨k.known, l ++ r⟩) hf hx).1 h
  rw [hpopsEq] at hpops
  rw [hleavesEq] at hslots hall
  have htaken : Swept c upvalueCount arity found count (· = o) ⟨k.known, l ++ r⟩ :=
    ⟨hk.size_eq, hk.start, hk.noted, hk.low, fun o' ho' => hk.work o' (by rw [hwork]; grind),
      fun {o' x'} hx' hwork' hne => hk.done hx' (by rw [hwork]; grind) id⟩
  obtain ⟨hk', hgrows, hroom, hlands⟩ :=
    htaken.reachAll _ hall (fun d hd => hreached.next (hf.leads_iff.2 hd))
    (fun d hd level hl => by rw [hl.next hreached hf.op_eq (hf.leads_iff.2 hd), hforced level hl])
    hnext fun ha => by
      have hlow : -2305843009213693952 ≤ x ∧ x + k.unknown ≤ 2305843009213693953 + c.code.size :=
        hk.low hx ha
      have hunknown : Heights.unknown ⟨k.known, l ++ r⟩ = k.unknown := rfl
      have hpopsLe := c.pops_le op o
      have hpushesLe := c.pushes_le op o
      rw [← hpopsEq, show c.count (x - c.pops op o) = x - c.pops op o from if_pos (by omega)] at hpops
      rw [← hleavesEq, Chunk.leaves, show c.count (x - c.pops op o + c.pushes op o) =
        x - c.pops op o + c.pushes op o from
        if_pos (by omega)]
      omega
  refine ⟨⟨hk'.size_eq, hk'.start, hk'.noted, hk'.low, hk'.work,
    fun {o' x'} hx' hwork' _ op' behind' hf' => ?_⟩, ?_⟩
  · by_cases heq : o' = o
    · subst heq
      obtain rfl : x' = x := by simpa [hx'] using hgrows _ _ hx
      obtain ⟨rfl, rfl⟩ := hf.unique hf'
      exact ⟨hpops, hslots, hlands⟩
    · exact hk'.done hx' hwork' heq hf'
  · rw [hroom]
    simp only [Heights.room, Heights.unknown, hwork, List.length_append, List.length_cons]
    omega

theorem exists_turn (hcount : Counts c arity count) {l r : List Nat} (hwork : k.work = l ++ o :: r)
    {level : Int → Int} (hl : c.Levels count arity level) :
    ∃ k', Heights.visit c ⟨k.known, l ++ r⟩ o = .ok k' := by
  obtain ⟨x, hx⟩ := hk.work o (by simp [hwork])
  obtain ⟨⟨op, hmem⟩, hreached, hforced⟩ := hk.noted hx
  obtain ⟨behind, hf, -⟩ := hc o op hmem
  obtain ⟨hpopsEq, hleavesEq⟩ := hk.leaves_eq hcount hx op
  have hlevel := hforced level hl
  obtain ⟨k', hk'⟩ :=
    @exists_reachAll ⟨k.known, l ++ r⟩ (c.leaves count op o x) (successors c op o behind)
    (fun d hd => hk.size_eq ▸ hl.inside hreached (hf.leads_iff.2 hd)) fun d hd x' hx' => by
      have hd' := (hl.inside hreached (hf.leads_iff.2 hd)).1
      rw [← (hk.noted hx').2.2 level hl, Int.toNat_of_nonneg hd',
        hl.next hreached hf.op_eq (hf.leads_iff.2 hd), hlevel]
  refine ⟨k', (visit_eq_ok_iff (k := ⟨k.known, l ++ r⟩) hf hx).2 ⟨?_, ?_, ?_⟩⟩
  · rw [hpopsEq, ← hlevel]
    exact hl.pops hreached hf.op_eq
  · rw [hleavesEq, ← hlevel, Chunk.checkSlots_eq_ok_iff]
    refine ⟨fun hslot => hl.slot hreached hf.op_eq hslot, ?_⟩
    rintro rfl
    obtain ⟨size, hsize, rfl⟩ := hf.length
    exact hl.captures hreached hf.op_eq hsize
  · rw [hleavesEq]
    exact hk'

/-- **The end of a search** without a flaw: the heights noted fit. -/
theorem levels (hwork : k.work = []) : ∃ level, c.Levels count arity level := by
  have hdone : ∀ {o : Nat} {x : Int}, k.known[o]? = some (some x) →
    ∃ op behind, c.Found upvalueCount o op behind ∧
      1 ≤ count (x - c.pops op o) ∧ checkSlots c op o behind x (c.leaves count op o x) = .ok () ∧
      ∀ d, c.Leads o d → ∃ n : Nat, d = n ∧ k.known[n]? = some (some (c.leaves count op o x)) := by
    intro o x hx
    obtain ⟨⟨op, hmem⟩, -⟩ := hk.noted hx
    obtain ⟨behind, hf, -⟩ := hc o op hmem
    obtain ⟨hpops, hslots, hnext⟩ := hk.done hx (by simp [hwork]) id hf
    exact ⟨op, behind, hf, hpops, hslots, fun d hd => hnext d (hf.leads_iff.1 hd)⟩
  have hknown : ∀ {d : Int}, c.Reached d → ∃ (n : Nat) (x : Int), d = n ∧
      k.known[n]? = some (some x) := by
    intro d hd
    induction hd with
    | start => exact ⟨0, _, rfl, hk.start⟩
    | next _ hd ih =>
      obtain ⟨n, x, heq, hx⟩ := ih
      obtain rfl := Int.ofNat_inj.1 heq
      obtain ⟨op, behind, -, -, -, hnext⟩ := hdone hx
      obtain ⟨n', hn', hx'⟩ := hnext _ hd
      exact ⟨n', _, hn', hx'⟩
  have hat : ∀ {o : Nat} {op : Op}, c.Reached o → c.op? o = some op →
    ∃ behind x, k.known[o]? = some (some x) ∧
      c.Found upvalueCount o op behind ∧ 1 ≤ count (x - c.pops op o) ∧
      checkSlots c op o behind x (c.leaves count op o x) = .ok () ∧
      ∀ d, c.Leads o d → ∃ n : Nat, d = n ∧ k.known[n]? = some (some (c.leaves count op o x)) := by
    intro o op ho hop
    obtain ⟨n, x, heq, hx⟩ := hknown ho
    obtain rfl := Int.ofNat_inj.1 heq
    obtain ⟨op', behind, hf, hrest⟩ := hdone hx
    obtain rfl := Option.some.inj (hf.op_eq.symm.trans hop)
    exact ⟨behind, x, hx, hf, hrest⟩
  refine ⟨fun d => ((k.known[d.toNat]?).getD none).getD 0, ?_, ?_, ?_, ?_, ?_, ?_⟩
  · simp [hk.start]
  · intro o op ho hop
    obtain ⟨behind, x, hx, hf, hpops, -⟩ := hat ho hop
    simpa [hx] using hpops
  · intro o op ho hop hslot
    obtain ⟨behind, x, hx, hf, -, hslots, -⟩ := hat ho hop
    simpa [hx] using (Chunk.checkSlots_eq_ok_iff.1 hslots).1 hslot
  · intro o size ho hop hsize
    obtain ⟨behind, x, hx, hf, -, hslots, -⟩ := hat ho hop
    obtain ⟨size', hsize', rfl⟩ := hf.length
    obtain rfl := Except.ok.inj (hsize.symm.trans hsize')
    simpa [hx] using (Chunk.checkSlots_eq_ok_iff.1 hslots).2 rfl
  · intro o d ho hd
    obtain ⟨n, x, rfl, hx⟩ := hknown (ho.next hd)
    have := (Array.getElem?_eq_some_iff.1 hx).1
    rw [hk.size_eq] at this
    omega
  · intro o op d ho hop hd
    obtain ⟨behind, x, hx, hf, -, -, hnext⟩ := hat ho hop
    obtain ⟨n, rfl, hx'⟩ := hnext d hd
    simp [hx, hx']

theorem run (hcount : Counts c arity count) (fuel : Nat) (hfuel : k.room ≤ fuel)
    (h : k.run c fuel = .ok k') :
    Swept c upvalueCount arity found count (fun _ => False) k' ∧ k'.work = [] := by
  induction fuel generalizing k with
  | zero =>
    cases h
    exact ⟨hk, List.eq_nil_of_length_eq_zero (by unfold room at hfuel; omega)⟩
  | succ fuel ih =>
    rw [Heights.run] at h
    split at h
    · rename_i hwork
      cases h
      exact ⟨hk, hwork⟩
    · rename_i o rest hwork
      split at h
      · cases h
      · rename_i k1 hvisit
        obtain ⟨hk1, hroom⟩ := hk.turn hc hcount (l := []) hwork hvisit
        exact ih hk1 (by omega) h

theorem exists_run (hcount : Counts c arity count) {level : Int → Int}
    (hl : c.Levels count arity level) (fuel : Nat) : ∃ k', k.run c fuel = .ok k' := by
  induction fuel generalizing k with
  | zero => exact ⟨k, rfl⟩
  | succ fuel ih =>
    rw [Heights.run]
    split
    · exact ⟨k, rfl⟩
    · rename_i o rest hwork
      obtain ⟨k1, hvisit⟩ := hk.exists_turn hc hcount (l := []) hwork hl
      obtain ⟨k', hk'⟩ := ih (hk.turn hc hcount (l := []) hwork hvisit).1
      rw [List.nil_append] at hvisit
      exact ⟨k', by rw [hvisit]; exact hk'⟩

end

theorem first (hcount : Counts c arity count) {op : Op} (hop : (0, op) ∈ found)
    (h : Heights.reach ⟨Array.replicate c.code.size none, []⟩ 0 (c.count (1 + arity)) = .ok k) :
    Swept c upvalueCount arity found count (fun _ => False) k ∧ k.room = c.code.size := by
  have hempty : Heights.room ⟨Array.replicate c.code.size none, []⟩ = c.code.size := by
    simp [Heights.room, Heights.unknown, Array.countP_replicate]
  have hstart : c.count (1 + arity) = count (1 + arity) := by
    obtain rfl | ⟨rfl, ha⟩ := hcount
    · rfl
    · exact if_pos (by omega)
  rw [hstart] at h
  obtain ⟨hnotes, hcases⟩ := reach_start h
  have hknown : k.known[0]? = some (some (count (1 + arity))) := by rw [hnotes.known, if_pos rfl]
  refine ⟨⟨hnotes.size_eq.trans (by simp), hknown, fun hx => ?_, fun hx ha => ?_, fun o ho => ?_,
    fun hx hwork => ?_⟩, hnotes.room.trans hempty⟩
  · obtain ⟨rfl, rfl⟩ := hcases hx
    exact ⟨⟨op, hop⟩, .start, fun level hl => hl.start⟩
  · obtain ⟨rfl, rfl⟩ := hcases hx
    rw [← hstart, show c.count (1 + arity) = 1 + arity from if_pos (by omega)]
    have hunknown := hnotes.unknown
    have : Heights.unknown ⟨Array.replicate c.code.size none, []⟩ = c.code.size := hempty
    omega
  · obtain rfl : o = 0 := by simpa [hnotes.work] using ho
    exact ⟨_, hknown⟩
  · obtain ⟨rfl, -⟩ := hcases hx
    simp [hnotes.work] at hwork

end Swept

/-- So many turns of a search from the start of the code, each of which follows one of the noted
offsets, whichever. -/
inductive Turns (c : Chunk Constant) (arity : Int) : Nat → Heights → Prop
  | start {k : Heights}
      (h : Heights.reach ⟨Array.replicate c.code.size none, []⟩ 0 (c.count (1 + arity)) = .ok k) :
      Turns c arity 0 k
  | turn {n : Nat} {k k' : Heights} {l : List Nat} {o : Nat} {r : List Nat} (h : Turns c arity n k)
      (hwork : k.work = l ++ o :: r)
      (hvisit : Heights.visit c ⟨k.known, l ++ r⟩ o = .ok k') : Turns c arity (n + 1) k'

theorem Turns.swept (hcount : Counts c arity count) (hc : Closed c upvalueCount found) {op : Op}
    (hop : (0, op) ∈ found)
    (h : Turns c arity n k) :
    Swept c upvalueCount arity found count (fun _ => False) k ∧ k.room + n = c.code.size := by
  induction h with
  | start h => exact Swept.first hcount hop h
  | turn _ hwork hvisit ih =>
    obtain ⟨hk', hroom⟩ := ih.1.turn hc hcount hwork hvisit
    exact ⟨hk', by omega⟩

theorem count_ne_neg_one (hsize : c.code.size ≤ 4611686018427387904) {z : Int} (hz : 1 ≤ c.count z)
    (hn : n ≤ 1) : c.count (z + n) ≠ -1 := by
  unfold Chunk.count Number.wrapWord Int.bmod at *
  dsimp only at hz ⊢
  repeat' split at hz
  all_goals (repeat' split) <;> omega

/-- **`-1` may stand for a height that is not known.** No turn notes it. A search may begin with it,
and then its first turn fails. -/
theorem Turns.ne_neg_one (hsize : c.code.size ≤ 4611686018427387904)
    (hc : Closed c upvalueCount found) {op : Op} (hop : (0, op) ∈ found)
    (h : Turns c arity n k) (hx : k.known[o]? = some (some x)) : x ≠ -1 ∨ n = 0 ∧ k.work = [o] := by
  induction h generalizing o x with
  | start h =>
    obtain ⟨hnotes, hcases⟩ := reach_start h
    obtain ⟨rfl, -⟩ := hcases hx
    exact .inr ⟨rfl, hnotes.work⟩
  | @turn n k k' l o' r h hwork hvisit ih =>
    obtain ⟨hswept, -⟩ := h.swept (.inl rfl) hc hop
    obtain ⟨x', hx'⟩ := hswept.work o' (by simp [hwork])
    obtain ⟨⟨op', hmem⟩, -⟩ := hswept.noted hx'
    obtain ⟨behind, hf, -⟩ := hc o' op' hmem
    obtain ⟨hpops, -, hall⟩ := (visit_eq_ok_iff (k := ⟨k.known, l ++ r⟩) hf hx').1 hvisit
    obtain rfl | hx := known_reachAll _ hall hx
    · exact .inl (count_ne_neg_one hsize hpops (c.pushes_le op' o'))
    · obtain hne | ⟨-, hfirst⟩ := ih hx
      · exact .inl hne
      · -- what the search began with is what is followed
        obtain rfl : o' = o := List.mem_singleton.1 (hfirst ▸ hwork ▸ by simp)
        obtain rfl : x = x' := by simpa using hx.symm.trans hx'
        refine .inl ?_
        rintro rfl
        have := c.pops_le op' o'
        rw [show c.count (-1 - c.pops op' o') = -1 - c.pops op' o' from if_pos (by omega)] at hpops
        omega

end Heights

section

variable {c : Chunk Constant} {upvalueCount arity : Int} {found : Array (Nat × Op)} {count : Int → Int}
  (hfound : decode c upvalueCount = .ok found) (hcount : Heights.Counts c arity count)
include hfound hcount

theorem checkHeights_spec {k : Heights} (h : checkHeights c arity = .ok k) :
    Heights.Swept c upvalueCount arity found count (fun _ => False) k ∧ k.work = [] := by
  obtain ⟨⟨op, hop⟩, hc⟩ := decode_spec hfound
  unfold checkHeights at h
  split at h
  · cases h
  · rename_i k0 hreach
    obtain ⟨hk0, hroom⟩ := Heights.Swept.first hcount hop hreach
    exact hk0.run hc hcount _ (by omega) h

theorem exists_checkHeights {level : Int → Int} (hl : c.Levels count arity level) :
    ∃ k, checkHeights c arity = .ok k := by
  obtain ⟨⟨op, hop⟩, hc⟩ := decode_spec hfound
  obtain ⟨behind, hf, -⟩ := hc 0 op hop
  have hlt := hf.lt_size
  obtain ⟨k, hk⟩ := @Heights.exists_reach ⟨Array.replicate c.code.size none, []⟩
    (c.count (1 + arity)) 0 (Int.le_refl 0)
    (by simpa using hlt) (by simp [Array.getElem?_replicate])
  unfold checkHeights
  simp only [hk]
  exact (Heights.Swept.first hcount hop hk).1.exists_run hc hcount hl _

/-- **The search decides**: decoded code is accepted exactly if there are heights that fit. In
whatever order the noted offsets are followed, there are no more turns than bytes of code; a flaw is
found only if no heights fit, and none is left only if some do. -/
theorem checkHeights_iff :
    ((∃ k, checkHeights c arity = .ok k) ↔ ∃ level, c.Levels count arity level) ∧
    ∀ n k, Heights.Turns c arity n k → n ≤ c.code.size ∧
    (k.work = [] → ∃ level, c.Levels count arity level) ∧
      ∀ l o r e, k.work = l ++ o :: r → Heights.visit c ⟨k.known, l ++ r⟩ o = .error e →
        ¬ ∃ level, c.Levels count arity level := by
  obtain ⟨⟨op, hop⟩, hc⟩ := decode_spec hfound
  refine ⟨⟨fun ⟨k, hk⟩ => ?_, fun ⟨level, hl⟩ => ?_⟩, fun n k h => ?_⟩
  · obtain ⟨hswept, hwork⟩ := checkHeights_spec hfound hcount hk
    exact hswept.levels hc hwork
  · exact exists_checkHeights hfound hcount hl
  · obtain ⟨hswept, hroom⟩ := h.swept hcount hc hop
    refine ⟨by omega, hswept.levels hc, ?_⟩
    rintro l o r e hwork hvisit ⟨level, hl⟩
    obtain ⟨k', hk'⟩ := hswept.exists_turn hc hcount hwork hl
    rw [hvisit] at hk'
    cases hk'

end

/-- The code of a loop without end: `TRUE`, out of it if that is false, `POP` and back, then the end
of the function. -/
def endlessLoop : Chunk Constant := { code := #[2, 27, 0, 4, 4, 28, 0, 8, 4, 1, 32] }

theorem checkHeights_iff_endlessLoop : ∃ level, endlessLoop.Levels id 0 level := by
  have hok {α : Type} {x : Except Flaw α} (h : x.isOk = true) : ∃ a, x = .ok a := by
    cases x with
    | ok a => exact ⟨a, rfl⟩
    | error => cases h
  obtain ⟨found, hfound⟩ : ∃ found, decode endlessLoop 0 = .ok found := hok (by decide +kernel)
  exact (checkHeights_iff hfound (.inr ⟨rfl, by decide⟩)).1.1 (hok (by decide +kernel))

end Parlance
