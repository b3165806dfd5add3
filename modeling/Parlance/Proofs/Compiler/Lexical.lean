/-
  What names stand for.
-/
import Parlance.Proofs.Compiler.Names
import Parlance.Proofs.Compiler.Laws

namespace Parlance

namespace Context

variable {k slot i : Nat} {inner : Context} {c c' : Context} {name : String} {slot : Nat}
  {around : List Context}

/-! ## Declarations -/

/-- The variable in the slot has the name. -/
def Named (c : Context) (name : String) (slot : Nat) : Prop := c.locals[slot]?.map (·.name) = some name

/-- The innermost variable of the name is that in the slot. -/
def Declares (c : Context) (name : String) (slot : Nat) : Prop :=
  c.Named name slot ∧ ∀ j, slot < j → ¬ c.Named name j

/-- There is no variable of the name. -/
def Lacks (c : Context) (name : String) : Prop := ∀ j, ¬ c.Named name j

theorem Named.lt (h : c.Named name slot) : slot < c.locals.size := by
  obtain ⟨l, hl, -⟩ := Option.map_eq_some_iff.1 h
  exact (Array.getElem?_eq_some_iff.1 hl).1

theorem findBelow?_spec (c : Context) (name : String) (m : Nat) :
    (∀ slot, findBelow? c.locals name m = some slot → c.Named name slot ∧ ∀ j, slot < j → j < m →
      ¬ c.Named name j) ∧ (findBelow? c.locals name m = none → ∀ j < m, ¬ c.Named name j) := by
  induction m with
  | zero => simp [findBelow?]
  | succ m ih =>
    have hbelow : ¬ c.Named name m →
        (∀ slot, findBelow? c.locals name m = some slot → c.Named name slot ∧ ∀ j, slot < j →
          j < m + 1 → ¬ c.Named name j) ∧
          (findBelow? c.locals name m = none → ∀ j < m + 1, ¬ c.Named name j) := by
      intro hm
      refine ⟨fun slot h => ⟨(ih.1 slot h).1, fun j hj hj' => ?_⟩, fun h j hj => ?_⟩
      all_goals rcases Nat.lt_succ_iff_lt_or_eq.1 ‹j < m + 1› with hlt | rfl
      exacts [(ih.1 slot h).2 j hj hlt, hm, ih.2 h j hlt, hm]
    rw [findBelow?]
    cases hl : c.locals[m]? with
    | none => exact hbelow (by simp [Named, hl])
    | some l =>
      by_cases hname : l.name = name
      · simp only [hname, beq_self_eq_true, if_true]
        refine ⟨fun slot h => ?_, fun h => by cases h⟩
        cases h
        exact ⟨by simp [Named, hl, hname], fun j hj hj' => by omega⟩
      · simp only [beq_iff_eq, hname, if_false]
        exact hbelow (by simp [Named, hl, hname])

theorem findLocal?_declares (h : c.findLocal? name = some slot) : c.Declares name slot := by
  obtain ⟨hnamed, hlast⟩ := (c.findBelow?_spec name c.locals.size).1 slot h
  exact ⟨hnamed, fun j hj hj' => hlast j hj hj'.lt hj'⟩

theorem findLocal?_lacks (h : c.findLocal? name = none) : c.Lacks name :=
  fun j hj => (c.findBelow?_spec name c.locals.size).2 h j hj.lt hj

theorem Declares.findLocal? (h : c.Declares name slot) : c.findLocal? name = some slot := by
  cases hfind : c.findLocal? name with
  | none => exact absurd h.1 (findLocal?_lacks hfind slot)
  | some slot' =>
    obtain ⟨hnamed, hlast⟩ := findLocal?_declares hfind
    rcases Nat.lt_trichotomy slot slot' with hlt | rfl | hlt
    · exact absurd hnamed (h.2 _ hlt)
    · rfl
    · exact absurd h.1 (hlast _ hlt)

theorem Lacks.findLocal? (h : c.Lacks name) : c.findLocal? name = none := by
  cases hfind : c.findLocal? name with
  | none => rfl
  | some slot => exact absurd (findLocal?_declares hfind).1 (h slot)

/-- Of the functions, from the innermost outwards, the `k`th is the first to declare the name. -/
inductive Nearest (name : String) : List Context → Nat → Nat → Prop
  | here {c cs slot} (h : c.Declares name slot) : Nearest name (c :: cs) 0 slot
  | further {c cs k slot} (hc : c.Lacks name) (h : Nearest name cs k slot) :
      Nearest name (c :: cs) (k + 1) slot

theorem Nearest.not_lacks {cs : List Context} {k : Nat} (h : Nearest name cs k slot) :
    ¬ ∀ c ∈ cs, c.Lacks name := by
  induction h with
  | here h => exact fun hlacks => hlacks _ List.mem_cons_self _ h.1
  | further _ _ ih => exact fun hlacks => ih (List.forall_mem_cons.1 hlacks).2

theorem Nearest.unique {cs : List Context} {k k' slot' : Nat} (h : Nearest name cs k slot)
    (h' : Nearest name cs k' slot') : k = k' ∧ slot = slot' := by
  induction h generalizing k' with
  | here h =>
    cases h' with
    | here h' => exact ⟨rfl, Option.some.inj (h.findLocal?.symm.trans h'.findLocal?)⟩
    | further hlacks => exact absurd h.1 (hlacks _)
  | further hlacks _ ih =>
    cases h' with
    | here h' => exact absurd h'.1 (hlacks _)
    | further _ h' => exact ⟨congrArg (· + 1) (ih h').1, (ih h').2⟩

theorem nearest_or_lacks (name : String) (cs : List Context) :
    (∃ k slot, Nearest name cs k slot) ∨ ∀ c ∈ cs, c.Lacks name := by
  induction cs with
  | nil => exact .inr (by simp)
  | cons c cs ih =>
    cases hfind : c.findLocal? name with
    | some slot => exact .inl ⟨0, slot, .here (findLocal?_declares hfind)⟩
    | none =>
      have hc := findLocal?_lacks hfind
      rcases ih with ⟨k, slot, h⟩ | h
      · exact .inl ⟨k + 1, slot, .further hc h⟩
      · exact .inr (List.forall_mem_cons.2 ⟨hc, h⟩)

/-! ## Captures -/

/-- The variable that the `i`th capture leads to: a slot of the `k`th function around. -/
def follow (inner : Context) : List Context → Nat → Option (Nat × Nat)
  | [], _ => none
  | c :: cs, i =>
    match inner.captures[i]? with
    | some ⟨index, true⟩ => some (0, index.toNat)
    | some ⟨index, false⟩ => (follow c cs index.toNat).map fun v => (v.1 + 1, v.2)
    | none => none

/-- The index under which a slot of the `k`th function around is known. -/
def known (inner : Context) : List Context → Nat → Nat → Option Nat
  | [], _, _ => none
  | _ :: _, 0, slot => inner.captures.findIdx? (· == ⟨.ofNat slot, true⟩)
  | c :: cs, k + 1, slot => (known c cs k slot).bind fun j =>
      inner.captures.findIdx? (· == ⟨.ofNat j, false⟩)

/-- A byte is enough for the slots and for the captures. -/
def Roomy (c : Context) : Prop := c.locals.size ≤ maxLocals ∧ c.captures.size ≤ maxUpvalues

/-- Captures have been added at most, and not more than there is room for. -/
structure Extends (c c' : Context) : Prop where
  captures : ∃ more, c'.captures = c.captures ++ more
  roomy : c.Roomy → c'.Roomy

theorem Extends.findIdx? (h : c.Extends c') {p : Capture → Bool} {i : Nat}
    (hi : c.captures.findIdx? p = some i) : c'.captures.findIdx? p = some i := by
  obtain ⟨more, hmore⟩ := h.captures
  rw [hmore, Array.findIdx?_append, hi]
  rfl

theorem Extends.getElem? (h : c.Extends c') {i : Nat} {k : Capture} (hi : c.captures[i]? = some k) :
    c'.captures[i]? = some k := by
  obtain ⟨more, hmore⟩ := h.captures
  rw [hmore, Array.getElem?_append_left (Array.getElem?_eq_some_iff.1 hi).1, hi]

theorem follow_extends {inner inner' : Context} {around around' : List Context}
    (h : List.Forall₂ Extends (inner :: around) (inner' :: around')) {i : Nat} {v : Nat × Nat}
    (hv : follow inner around i = some v) : follow inner' around' i = some v := by
  induction around generalizing inner inner' around' i v with
  | nil => simp [follow] at hv
  | cons c cs ih =>
    obtain ⟨hinner, hrest⟩ := List.forall₂_cons.1 h
    obtain ⟨c', cs', hc, hcs, rfl⟩ := List.forall₂_cons_left_iff.1 hrest
    rw [follow] at hv ⊢
    cases hi : inner.captures[i]? with
    | none => simp [hi] at hv
    | some k =>
      obtain ⟨index, isLocal⟩ := k
      rw [hi] at hv
      rw [hinner.getElem? hi]
      cases isLocal with
      | true => exact hv
      | false =>
        obtain ⟨w, hw, rfl⟩ := Option.map_eq_some_iff.1 hv
        exact Option.map_eq_some_iff.2 ⟨w, ih (.cons hc hcs) hw, rfl⟩

theorem known_extends {inner inner' : Context} {around around' : List Context}
    (h : List.Forall₂ Extends (inner :: around) (inner' :: around'))
    (hi : known inner around k slot = some i) : known inner' around' k slot = some i := by
  induction around generalizing inner inner' around' k i with
  | nil => simp [known] at hi
  | cons c cs ih =>
    obtain ⟨hinner, hrest⟩ := List.forall₂_cons.1 h
    obtain ⟨c', cs', hc, hcs, rfl⟩ := List.forall₂_cons_left_iff.1 hrest
    cases k with
    | zero => exact hinner.findIdx? hi
    | succ k =>
      obtain ⟨j, hj, hi⟩ := Option.bind_eq_some_iff.1 hi
      exact Option.bind_eq_some_iff.2 ⟨j, ih (.cons hc hcs) hj, hinner.findIdx? hi⟩

theorem getElem?_of_findIdx? {captures : Array Capture} {k : Capture} {i : Nat}
    (h : captures.findIdx? (· == k) = some i) : captures[i]? = some k := by
  obtain ⟨hlt, heq, -⟩ := Array.findIdx?_eq_some_iff_getElem.1 h
  rw [Array.getElem?_eq_getElem hlt, eq_of_beq heq]

theorem known_lt (h : known inner around k slot = some i) :
    i < inner.captures.size := by
  cases around with
  | nil => simp [known] at h
  | cons c cs =>
    cases k with
    | zero => exact (Array.findIdx?_eq_some_iff_getElem.1 h).1
    | succ k =>
      obtain ⟨j, -, hi⟩ := Option.bind_eq_some_iff.1 h
      exact (Array.findIdx?_eq_some_iff_getElem.1 hi).1

theorem known_follow (hroom : ∀ c ∈ inner :: around, c.Roomy)
    (hslot : slot < maxLocals) (h : known inner around k slot = some i) :
    follow inner around i = some (k, slot) := by
  induction around generalizing inner k i with
  | nil => simp [known] at h
  | cons c cs ih =>
    rw [List.forall_mem_cons] at hroom
    cases k with
    | zero =>
      rw [follow, getElem?_of_findIdx? h]
      exact congrArg (fun slot => some (0, slot)) (UInt8.toNat_ofNat_of_lt' hslot)
    | succ k =>
      obtain ⟨j, hj, hi⟩ := Option.bind_eq_some_iff.1 h
      have hlt : j < 256 := Nat.lt_of_lt_of_le (known_lt hj) (hroom.2 c List.mem_cons_self).2
      rw [follow, getElem?_of_findIdx? hi]
      dsimp only
      rw [UInt8.toNat_ofNat_of_lt' hlt, ih hroom.2 hj]
      rfl

theorem Extends.refl (c : Context) : c.Extends c := ⟨⟨#[], (Array.append_empty ..).symm⟩, id⟩

section

variable {inner : Context} {cs : List Context}

theorem capture_here (h : c.findLocal? name = some slot) (inner : Context) (cs : List Context) :
    capture name inner (c :: cs) = Resolution.forward ⟨none, inner, c.markCaptured slot :: cs,
      if c.isUnready slot then [.misuse .ownInitializer] else []⟩ inner ⟨.ofNat slot, true⟩ := by
  simp only [capture, h]

theorem capture_further {i : Nat} (h : c.findLocal? name = none)
    (hi : (capture name c cs).index? = some i) (inner : Context) :
    capture name inner (c :: cs) =
      Resolution.forward ⟨none, inner, (capture name c cs).inner :: (capture name c cs).around,
      (capture name c cs).complaints⟩ inner ⟨.ofNat i, false⟩ := by
  simp only [capture, h, hi]

theorem capture_nowhere (h : c.findLocal? name = none) (hi : (capture name c cs).index? = none)
    (inner : Context) : capture name inner (c :: cs) =
      ⟨none, inner, (capture name c cs).inner :: (capture name c cs).around,
        (capture name c cs).complaints⟩ := by
  simp only [capture, h, hi]

theorem forward_extends (r : Resolution) (inner : Context) (k : Capture) :
    inner.Extends (r.forward inner k).inner ∧ (r.forward inner k).around = r.around := by
  rcases forward_cases r inner k with ⟨i, -, heq⟩ | ⟨hroom, -, heq⟩ | heq
  · rw [heq]
    exact ⟨.refl _, rfl⟩
  · rw [heq]
    refine ⟨⟨⟨#[k], rfl⟩, fun h => ⟨h.1, ?_⟩⟩, rfl⟩
    have := h.2
    simp only [setCaptures, Array.size_push]
    omega
  · rw [heq]
    exact ⟨.refl _, rfl⟩

theorem forward_known (r : Resolution) (inner : Context) (k : Capture)
    (hlimit : .limit .upvalues ∉ (r.forward inner k).complaints) : .limit .upvalues ∉ r.complaints ∧
      ∃ i, (r.forward inner k).index? = some i ∧
      (r.forward inner k).inner.captures.findIdx? (· == k) = some i := by
  rcases forward_cases r inner k with ⟨i, hi, heq⟩ | ⟨-, hnone, heq⟩ | heq
  · rw [heq] at hlimit ⊢
    exact ⟨hlimit, i, rfl, hi⟩
  · rw [heq] at hlimit ⊢
    exact ⟨hlimit, _, rfl, by simp [setCaptures, Array.findIdx?_push, hnone]⟩
  · simp [heq] at hlimit

theorem markCaptured_extends (c : Context) (slot : Nat) : c.Extends (c.markCaptured slot) :=
  ⟨(Extends.refl c).captures, fun h => ⟨by simpa [markCaptured] using h.1, h.2⟩⟩

theorem capture_extends (name : String) (inner : Context) (around : List Context) :
    List.Forall₂ Extends (inner :: around)
    ((capture name inner around).inner :: (capture name inner around).around) := by
  induction around generalizing inner with
  | nil => exact .cons (.refl _) .nil
  | cons c cs ih =>
    cases hfind : c.findLocal? name with
    | some slot =>
      rw [capture_here hfind]
      obtain ⟨hextends, haround⟩ :=
        forward_extends ⟨none, inner, c.markCaptured slot :: cs, _⟩ inner ⟨.ofNat slot, true⟩
      rw [haround]
      exact .cons hextends
        (.cons (markCaptured_extends c slot) (List.forall₂_same.2 fun c _ => .refl c))
    | none =>
      cases hindex : (capture name c cs).index? with
      | none =>
        rw [capture_nowhere hfind hindex]
        exact .cons (.refl _) (ih c)
      | some j =>
        rw [capture_further hfind hindex]
        obtain ⟨hextends, haround⟩ := forward_extends ⟨none, inner, _ :: _, _⟩ inner ⟨.ofNat j, false⟩
        rw [haround]
        exact .cons hextends (ih c)

/-- A variable that is declared in a function around gets an index, under which it is known from
then on. -/
theorem Nearest.known_capture {k slot : Nat} (h : Nearest name around k slot) (inner : Context)
    (hlimit : .limit .upvalues ∉ (capture name inner around).complaints) :
    ∃ i, (capture name inner around).index? = some i ∧
      known (capture name inner around).inner (capture name inner around).around k slot = some i ∧
      ∃ d, (capture name inner around).around[k]? = some d ∧ d.Flagged slot := by
  induction h generalizing inner with
  | @here c cs slot h =>
    rw [capture_here h.findLocal?] at hlimit ⊢
    obtain ⟨-, i, hi, hfind⟩ := forward_known _ _ _ hlimit
    rw [(forward_extends _ inner _).2]
    exact ⟨i, hi, hfind, _, rfl, markCaptured_flagged h.1.lt⟩
  | @further c cs k slot hc h ih =>
    cases hindex : (capture name c cs).index? with
    | none =>
      rw [capture_nowhere hc.findLocal? hindex] at hlimit
      obtain ⟨i, hi, -⟩ := ih c hlimit
      rw [hindex] at hi
      cases hi
    | some j =>
      rw [capture_further hc.findLocal? hindex] at hlimit ⊢
      obtain ⟨hlimit', i, hi, hfind⟩ := forward_known _ _ _ hlimit
      obtain ⟨j', hj, hknown, hflagged⟩ := ih c hlimit'
      obtain rfl : j = j' := Option.some.inj (hindex.symm.trans hj)
      rw [(forward_extends _ inner _).2]
      exact ⟨i, hi, Option.bind_eq_some_iff.2 ⟨j, hknown, hfind⟩, hflagged⟩

theorem Nearest.capture_of_known (h : Nearest name around k slot)
    (hi : known inner around k slot = some i) : (capture name inner around).index? = some i := by
  have hforward : ∀ (r : Resolution) {inner : Context} {k : Capture} {i : Nat},
    inner.captures.findIdx? (· == k) = some i →
      (r.forward inner k).index? = some i := fun r inner k i hi => by
    simp [Resolution.forward, addCapture, hi]
  induction h generalizing inner i with
  | here h =>
    rw [capture_here h.findLocal?]
    exact hforward _ hi
  | further hc h ih =>
    obtain ⟨j, hj, hi⟩ := Option.bind_eq_some_iff.1 hi
    rw [capture_further hc.findLocal? (ih hj)]
    exact hforward _ hi

theorem capture_of_lacks (h : ∀ c ∈ around, c.Lacks name) (inner : Context) :
    (capture name inner around).index? = none := by
  induction around generalizing inner with
  | nil => rfl
  | cons c cs ih =>
    rw [List.forall_mem_cons] at h
    rw [capture_nowhere h.1.findLocal? (ih h.2 c)]

theorem Nearest.slot_lt {k slot : Nat} (h : Nearest name around k slot)
    (hroom : ∀ c ∈ around, c.Roomy) : slot < maxLocals := by
  induction h with
  | here h => exact Nat.lt_of_lt_of_le h.1.lt (hroom _ List.mem_cons_self).1
  | further _ _ ih => exact ih fun c hc => hroom c (List.mem_cons_of_mem _ hc)

end

end Context

open Context (Nearest Extends follow known)

/-! ## Accesses -/

namespace Compilation

/-- The functions under way, from the innermost outwards. -/
def functions (s : Compilation) : List Context := s.context :: s.around

/-- There are the same variables and captures. -/
def SameNames (s t : Compilation) : Prop :=
  t.context.captures = s.context.captures ∧ t.context.locals = s.context.locals ∧ t.around = s.around

theorem SameNames.trans {s t u : Compilation} (h : s.SameNames t) (h' : t.SameNames u) :
    s.SameNames u :=
  ⟨h'.1.trans h.1, h'.2.1.trans h.2.1, h'.2.2.trans h.2.2⟩

theorem SameNames.extends {s t : Compilation} (h : s.SameNames t) {cs : List Context}
    (hcs : List.Forall₂ Extends cs s.functions) : List.Forall₂ Extends cs t.functions := by
  obtain ⟨hcaptures, hlocals, haround⟩ := h
  obtain ⟨c, cs, ⟨hmore, hroomy⟩, hrest, rfl⟩ := List.forall₂_cons_right_iff.1 hcs
  rw [functions, haround]
  refine .cons ⟨by rwa [hcaptures], fun hc => ?_⟩ hrest
  rw [Context.Roomy, hcaptures, hlocals]
  exact hroomy hc

theorem sameNames_complainAt (s : Compilation) (t : Token) (c : Complaint) :
    s.SameNames (s.complainAt t c) := by
  unfold complainAt
  split <;> exact ⟨rfl, rfl, rfl⟩

end Compilation

namespace Comp

open Compilation

variable {name : String} {s : Compilation} {slot i : Nat}

theorem complainAll_sameNames (cs : List Complaint) (s : Compilation) :
    s.SameNames ((complainAll cs).run s).2 := by
  induction cs generalizing s with
  | nil => exact ⟨rfl, rfl, rfl⟩
  | cons c cs ih => exact (sameNames_complainAt s s.previous c).trans (ih _)

theorem operandAt_sameNames (index : Nat) (s : Compilation) :
    s.SameNames ((operandAt index).run s).2 := by
  unfold operandAt
  split
  · exact sameNames_complainAt _ _ _
  · exact ⟨rfl, rfl, rfl⟩

theorem nameConstant_sameNames (name : String) (s : Compilation) :
    s.SameNames ((nameConstant name).run s).2 := by
  cases hfind : s.context.chunk.firstIndex? (·.isText name) with
  | some index =>
    rw [nameConstant_run_known hfind]
    exact ⟨rfl, rfl, rfl⟩
  | none =>
    rw [nameConstant_run_named hfind]
    exact SameNames.trans (t := { s with builds := _, context := _ }) ⟨rfl, rfl, rfl⟩
      (operandAt_sameNames _ _)

theorem resolve_declared (h : s.context.Declares name slot) :
    ((resolve name).run s).1 = ⟨.getLocal, .setLocal, .ofNat slot⟩ ∧
      s.SameNames ((resolve name).run s).2 := by
  rw [resolve_local h.findLocal?]
  show (StateT.run (m := Id) (if _ then _ else _ : Comp Access) s).1 = _ ∧
    s.SameNames (StateT.run (m := Id) (if _ then _ else _ : Comp Access) s).2
  split
  · exact ⟨rfl, sameNames_complainAt _ _ _⟩
  · exact ⟨rfl, rfl, rfl, rfl⟩

theorem resolve_captured (h : s.context.Lacks name)
    (hi : (capture name s.context s.around).index? = some i) :
    ((resolve name).run s).1 = ⟨.getUpvalue, .setUpvalue, .ofNat i⟩ ∧
      SameNames (s.after (capture name s.context s.around)) ((resolve name).run s).2 := by
  rw [resolve_other h.findLocal?]
  unfold accessOther
  rw [hi]
  exact ⟨rfl, complainAll_sameNames _ _⟩

theorem resolve_global (h : s.context.Lacks name)
    (hi : (capture name s.context s.around).index? = none) :
    (((resolve name).run s).1.read = .getGlobal ∧ ((resolve name).run s).1.write = .setGlobal) ∧
      SameNames (s.after (capture name s.context s.around)) ((resolve name).run s).2 := by
  rw [resolve_other h.findLocal?]
  unfold accessOther
  rw [hi]
  exact ⟨⟨rfl, rfl⟩, (complainAll_sameNames _ _).trans (nameConstant_sameNames name _)⟩

theorem resolve_extends (name : String) (s : Compilation) :
    List.Forall₂ Extends s.functions ((resolve name).run s).2.functions := by
  have hcapture := Context.capture_extends name s.context s.around
  cases hfind : s.context.findLocal? name with
  | some slot =>
    have hsame := (resolve_declared (Context.findLocal?_declares hfind)).2
    exact hsame.extends (List.forall₂_same.2 fun c _ => .refl c)
  | none =>
    have hlacks := Context.findLocal?_lacks hfind
    cases hindex : (capture name s.context s.around).index? with
    | some i => exact (resolve_captured hlacks hindex).2.extends hcapture
    | none => exact (resolve_global hlacks hindex).2.extends hcapture

end Comp

namespace Compilation

/-- No limit is reached where the name is resolved. -/
def Affords (s : Compilation) (name : String) : Prop :=
  (∀ c ∈ s.functions, c.Roomy) ∧
    (s.context.Lacks name → .limit .upvalues ∉ (capture name s.context s.around).complaints)

theorem roomy_of_extends {cs cs' : List Context} (h : List.Forall₂ Extends cs cs')
    (hroom : ∀ c ∈ cs, c.Roomy) : ∀ c ∈ cs', c.Roomy := by
  induction h with
  | nil => exact hroom
  | cons hc _ ih =>
    rw [List.forall_mem_cons] at hroom ⊢
    exact ⟨hc.roomy hroom.1, ih hroom.2⟩

variable {name : String} {s : Compilation} {k slot : Nat}

theorem Affords.captured (h : s.Affords name) (hnearest : Nearest name s.functions (k + 1) slot) :
    let r := (Comp.resolve name).run s
    ∃ i, r.1 = ⟨.getUpvalue, .setUpvalue, .ofNat i⟩ ∧ r.1.operand.toNat = i ∧
    known r.2.context r.2.around k slot = some i ∧
      follow r.2.context r.2.around i = some (k, slot) ∧ ∃ d, r.2.around[k]? = some d ∧
      d.Flagged slot := by
  obtain ⟨hroom, hlimit⟩ := h
  cases hnearest with
  | further hlacks hnearest =>
    obtain ⟨i, hi, hknown, hflagged⟩ := hnearest.known_capture s.context (hlimit hlacks)
    obtain ⟨haccess, hsame⟩ := Comp.resolve_captured hlacks hi
    have hroom' := roomy_of_extends (Comp.resolve_extends name s) hroom
    have hknown' :=
      Context.known_extends (hsame.extends (List.forall₂_same.2 fun c _ => .refl c)) hknown
    have hslot := hnearest.slot_lt fun c hc => hroom c (List.mem_cons_of_mem _ hc)
    have hlt : i < 256 := Nat.lt_of_lt_of_le (Context.known_lt hknown') (hroom' _ List.mem_cons_self).2
    refine ⟨i, haccess, ?_, hknown', Context.known_follow hroom' hslot hknown', ?_⟩
    · rw [haccess]
      exact UInt8.toNat_ofNat_of_lt' hlt
    · rw [hsame.2.2]
      exact hflagged

end Compilation

/-- What a name stands for: the variable of its nearest declaration. -/
structure Comp.Access.Lexical (v : Comp.Access) (name : String) (s s' : Compilation) : Prop where
  isLocal : v.read = .getLocal ↔ ∃ slot, Nearest name s.functions 0 slot
  slot : ∀ slot, Nearest name s.functions 0 slot → v.write = .setLocal ∧ v.operand.toNat = slot
  isUpvalue : v.read = .getUpvalue ↔ ∃ k slot, Nearest name s.functions (k + 1) slot
  leads : ∀ k slot, Nearest name s.functions (k + 1) slot → v.write = .setUpvalue ∧
    follow s'.context s'.around v.operand.toNat = some (k, slot) ∧ ∃ d, s'.around[k]? = some d ∧
    d.Flagged slot
  isGlobal : v.read = .getGlobal ↔ ∀ c ∈ s.functions, c.Lacks name
  global : (∀ c ∈ s.functions, c.Lacks name) → v.write = .setGlobal

theorem Compilation.Affords.lexical {name : String} {s : Compilation} (h : s.Affords name) :
    ((Comp.resolve name).run s).1.Lexical name s ((Comp.resolve name).run s).2 := by
  rcases Context.nearest_or_lacks name s.functions with ⟨k, slot, hnearest⟩ | hlacks
  · have hdeclared := hnearest.not_lacks
    cases k with
    | zero =>
      have hslot := hnearest.slot_lt h.1
      obtain ⟨haccess, -⟩ : ((Comp.resolve name).run s).1 = ⟨.getLocal, .setLocal, .ofNat slot⟩ ∧
          _ := by
        cases hnearest with
        | here hdeclares => exact Comp.resolve_declared hdeclares
      have hother : ∀ k' slot', ¬ Nearest name s.functions (k' + 1) slot' :=
        fun k' slot' h' => nomatch (hnearest.unique h').1
      rw [haccess]
      refine ⟨⟨fun _ => ⟨slot, hnearest⟩, fun _ => rfl⟩, fun slot' h' => ⟨rfl, ?_⟩, ⟨nofun, ?_⟩,
        fun k' slot' h' => absurd h' (hother k' slot'), ⟨nofun, fun hlacks => absurd hlacks hdeclared⟩,
        fun hlacks => absurd hlacks hdeclared⟩
      · rw [← (hnearest.unique h').2]
        exact UInt8.toNat_ofNat_of_lt' hslot
      · rintro ⟨k', slot', h'⟩
        exact absurd h' (hother k' slot')
    | succ k =>
      obtain ⟨i, haccess, hoperand, -, hfollow, hflagged⟩ := h.captured hnearest
      have hother : ∀ slot', ¬ Nearest name s.functions 0 slot' :=
        fun slot' h' => nomatch (hnearest.unique h').1
      rw [haccess] at hoperand ⊢
      refine ⟨⟨nofun, ?_⟩, fun slot' h' => absurd h' (hother slot'),
        ⟨fun _ => ⟨k, slot, hnearest⟩, fun _ => rfl⟩, ?_,
        ⟨nofun, fun hlacks => absurd hlacks hdeclared⟩, fun hlacks => absurd hlacks hdeclared⟩
      · rintro ⟨slot', h'⟩
        exact absurd h' (hother slot')
      · intro k' slot' h'
        obtain ⟨hk, rfl⟩ := hnearest.unique h'
        cases hk
        exact ⟨rfl, (congrArg _ hoperand).trans hfollow, hflagged⟩
  · have hother : ∀ k slot, ¬ Nearest name s.functions k slot := fun k slot h' => h'.not_lacks hlacks
    obtain ⟨hc, hcs⟩ := List.forall_mem_cons.1 hlacks
    obtain ⟨⟨hread, hwrite⟩, -⟩ := Comp.resolve_global hc (Context.capture_of_lacks hcs s.context)
    refine ⟨⟨fun h => ?_, fun ⟨slot, h'⟩ => absurd h' (hother _ _)⟩, fun slot h' =>
      absurd h' (hother _ _), ⟨fun h => ?_, fun ⟨k, slot, h'⟩ => absurd h' (hother _ _)⟩,
        fun k slot h' => absurd h' (hother _ _),
      ⟨fun _ => hlacks, fun _ => hread⟩, fun _ => hwrite⟩
    all_goals
      rw [hread] at h
      cases h

/-- **A name stands for the variable of its nearest declaration.** Through the captures of the
functions around its index leads there; it does so from then on, and no other variable has that
index. -/
theorem resolve_lexical (name : String) (s : Compilation) (h : s.Affords name) :
    let r := (Comp.resolve name).run s
    r.1.Lexical name s r.2 ∧ List.Forall₂ Extends s.functions r.2.functions ∧
    (∀ i v, follow s.context s.around i = some v → follow r.2.context r.2.around i = some v) ∧
    (∀ k slot name' s' k' slot', Nearest name s.functions (k + 1) slot →
      List.Forall₂ Extends r.2.functions s'.functions → s'.Affords name' →
      Nearest name' s'.functions (k' + 1) slot' →
      (((Comp.resolve name').run s').1.operand = r.1.operand ↔ (k', slot') = (k, slot))) ∧
    (Comp.endFunction.run s).1.1.upvalueCount = (Comp.endFunction.run s).1.2.size := by
  have hextends := Comp.resolve_extends name s
  refine ⟨h.lexical, hextends, fun i v hv => Context.follow_extends hextends hv, ?_,
    s.context.proto_upvalueCount⟩
  intro k slot name' s' k' slot' hnearest hlater h' hnearest'
  obtain ⟨i, haccess, hoperand, hknown, hfollow, -⟩ := h.captured hnearest
  obtain ⟨i', haccess', hoperand', -, hfollow', -⟩ := h'.captured hnearest'
  constructor
  · intro heq
    have hkept :=
      Context.follow_extends (Comp.resolve_extends name' s') (Context.follow_extends hlater hfollow)
    rw [← hoperand, ← heq, hoperand', hfollow'] at hkept
    exact Option.some.inj hkept
  · intro heq
    cases heq
    cases hnearest' with
    | further hlacks hnearest' =>
      have hindex := hnearest'.capture_of_known (Context.known_extends hlater hknown)
      rw [(Comp.resolve_captured hlacks hindex).1, haccess]

/-- From two functions further in, the variable of a function: it is in its first slot, and
forwarded by the function between. -/
theorem resolve_lexical_forwarded :
    let s : Compilation :=
      { rest := [], around := [{}, { locals := #[⟨"", some 0, false⟩, ⟨"x", some 1, false⟩] }, {}] }
    let r := (Comp.resolve "x").run s
    r.1.read = .getUpvalue ∧ follow r.2.context r.2.around r.1.operand.toNat = some (1, 1) := by
  intro s r
  have hlacks : ({} : Context).Lacks "x" := Context.findLocal?_lacks rfl
  have hnearest : Nearest "x" s.functions 2 1 :=
    .further hlacks (.further hlacks (.here (Context.findLocal?_declares rfl)))
  obtain ⟨hlexical, -⟩ :=
    resolve_lexical "x" s ⟨by simp [s, Compilation.functions, Context.Roomy, maxLocals],
    fun _ => by decide +kernel⟩
  exact ⟨hlexical.isUpvalue.2 ⟨1, 1, hnearest⟩, (hlexical.leads 1 1 hnearest).2.1⟩

end Parlance
