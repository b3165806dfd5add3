/-
  Scopes, variables, loops and choices.

  * `beginScope_spec`, `endScope_spec`: a scope leaves the frame as it was.
  * `declareName_spec`, `defineVariable_spec`: a declaration puts one variable on the frame.
  * `beginBreakable_spec`, `endBreakable_spec`: the jumps that leave a loop or a choice meet behind
    it.
-/
import Mathlib.Data.List.TakeWhile
import Parlance.Proofs.Compiler.Goals

namespace Parlance

namespace Context

variable {c d : Context} {ps : List Jump} {rs : List Loop} {h : Nat}

/-- The function with a variable that is not ready yet. -/
def push (c : Context) (name : String) : Context := { c with locals := c.locals.push { name } }

theorem push_flagged (c : Context) (name : String) : (c.push name).Flagged = c.Flagged := by
  funext i
  refine propext ⟨?_, ?_⟩
  · rintro ⟨l, hl, hcap⟩
    simp only [push, Array.getElem?_push] at hl
    split at hl
    · cases hl
      simp at hcap
    · exact ⟨l, hl, hcap⟩
  · rintro ⟨l, hl, hcap⟩
    refine ⟨l, ?_, hcap⟩
    have hlt := (Array.getElem?_eq_some_iff.1 hl).1
    simp only [push, Array.getElem?_push]
    rw [if_neg (by omega)]
    exact hl

theorem Kept.push (hk : d.Kept c) (name : String) : (d.push name).Kept (c.push name) := by
  refine ⟨?_, hk.constants, hk.captures⟩
  have := hk.outline_eq
  simp only [outline, Context.push, Outline.mk.injEq, Array.toList_push, List.map_append] at this ⊢
  exact ⟨this.1, by rw [this.2.1], this.2.2⟩

theorem Tame.push (hc : c.Tame) (name : String) (hlt : c.locals.size < maxLocals) :
    (c.push name).Tame := by
  refine ⟨by simp only [Context.push, Array.size_push]; omega, hc.captures_le, fun {i l} hl hcap => ?_⟩
  simp only [Context.push, Array.getElem?_push] at hl
  split at hl
  · cases hl
    simp at hcap
  · exact hc.ready hl hcap

theorem Drafted.push (hd : c.Drafted ps rs h) (name : String) : (c.push name).Drafted ps rs h := by
  obtain ⟨t, ht⟩ := hd
  refine ⟨t, ?_⟩
  have : (c.push name).sketch ps rs h = c.sketch ps rs h := by
    simp only [sketch, push_flagged]
    rfl
  exact this ▸ ht

theorem getElem?_markReady (c : Context) (i : Nat) : c.markReady.locals[i]? =
    if c.locals.size - 1 = i then c.locals[i]?.map fun l => { l with depth := some c.depth }
    else c.locals[i]? :=
  Array.getElem?_modify

theorem markReady_flagged (c : Context) : c.markReady.Flagged = c.Flagged := by
  funext i
  simp only [Flagged, getElem?_markReady]
  split
  · cases c.locals[i]? <;> simp
  · rfl

theorem markReady_outline (c : Context) : c.markReady.outline =
    { c.outline with
      locals :=
        c.outline.locals.modify (c.outline.locals.length - 1) (fun _ => some c.outline.depth) } := by
  simp only [outline, markReady, Outline.mk.injEq, true_and, and_true]
  refine List.ext_getElem? fun i => ?_
  simp only [List.getElem?_map, Array.getElem?_toList, Array.getElem?_modify, List.getElem?_modify,
    List.length_map, Array.length_toList]
  split <;> cases c.locals[i]? <;> simp

theorem Kept.markReady (hk : d.Kept c) : d.markReady.Kept c.markReady :=
  ⟨by rw [markReady_outline, markReady_outline, hk.outline_eq], hk.constants, hk.captures⟩

theorem Tame.markReady (hc : c.Tame) : c.markReady.Tame := by
  refine ⟨by simpa [Context.markReady] using hc.locals_le, hc.captures_le, fun {i l} hl hcap => ?_⟩
  rw [getElem?_markReady] at hl
  split at hl
  · obtain ⟨l', -, rfl⟩ := Option.map_eq_some_iff.1 hl
    exact ⟨c.depth, rfl⟩
  · exact hc.ready hl hcap

theorem Drafted.markReady (hd : c.Drafted ps rs h) : c.markReady.Drafted ps rs h := by
  obtain ⟨t, ht⟩ := hd
  refine ⟨t, ?_⟩
  have : c.markReady.sketch ps rs h = c.sketch ps rs h := by
    simp only [sketch, markReady_flagged]
    rfl
  exact this ▸ ht

theorem push_markReady (c : Context) (name : String) :
    (c.push name).markReady = c.declare [⟨name, some c.depth, false⟩] := by
  simp only [Context.markReady, push, declare, Context.mk.injEq, true_and, and_true]
  refine Array.ext_getElem? fun i => ?_
  simp only [Array.getElem?_modify, Array.getElem?_push, Array.getElem?_append, Array.size_push]
  rcases Nat.lt_trichotomy i c.locals.size with hlt | rfl | hlt
  · rw [if_neg (by omega), if_neg (by omega), if_pos hlt]
  · simp
  · rw [if_neg (by omega), if_neg (by omega), if_neg (by omega), Array.getElem?_eq_none (by omega),
      Array.getElem?_eq_none (by simp only [List.size_toArray, List.length_singleton]; omega)]

theorem declare_markReady (c : Context) (name : String) :
    (c.declare [⟨name, some c.depth, false⟩]).markReady = c.declare [⟨name, some c.depth, false⟩] := by
  simp only [Context.markReady, declare, Context.mk.injEq, true_and, and_true]
  refine Array.ext_getElem? fun i => ?_
  rw [Array.getElem?_modify]
  split
  · rename_i hi
    subst hi
    simp
  · rfl

/-- The function with a variable declared in a scope; outside of scopes there are only globals. -/
def announce (c : Context) (name : String) : Context := if 0 < c.depth then c.push name else c

theorem announce_depth (c : Context) (name : String) : (c.announce name).depth = c.depth := by
  unfold announce
  split <;> rfl

/-- Outside of scopes, the constant with index `i` names a global. -/
def Titled (c : Context) (i : UInt8) (chunk : Chunk Constant) : Prop :=
  c.depth = 0 → ∃ x, chunk.constants[i.toNat]? = some (.text x)

theorem Titled.kept {c' : Context} {i : UInt8} (hk : d.Kept c') (ht : c.Titled i d.chunk) :
    c.Titled i c'.chunk :=
  fun hzero => (ht hzero).imp fun _ hx => hk.constants _ _ hx

/-- The variable declared last becomes ready, if it is one of a scope. -/
def settle (c : Context) : Context := if 0 < c.depth then c.markReady else c

/-- The function inside one more loop or choice. -/
def enclose (c : Context) (isLoop : Bool) (target : Nat) : Context :=
  { c with breakables := ⟨isLoop, c.locals.size, target, #[]⟩ :: c.breakables }

theorem Settled.deepen (hc : c.Settled ps rs h) : c.deepen.Settled ps rs h :=
  { hc with
    ready := fun d hd => (hc.ready d hd).imp fun _ he => ⟨Nat.le_succ_of_le he.1, he.2⟩ }

theorem Settled.choice (hc : c.Settled ps rs h) (target : Nat) :
    (c.enclose false target).Settled ps rs h :=
  { hc with
    nest := .choice hc.nest (hc.height ▸ hc.base.loops)
    counts := List.forall_mem_cons.2 ⟨⟨hc.height ▸ hc.pos, Nat.le_of_eq hc.height.symm⟩, hc.counts⟩ }

theorem Settled.loop (hc : c.Settled ps rs h) {r : Loop} {target : Nat} (hr : r.height = h)
    (ht : target ∈ r.entries) : (c.enclose true target).Settled ps (r :: rs) h :=
  { hc with
    nest := by
      have := Nest.loop hc.nest (hr ▸ hc.base.loops) ht
      rwa [hr, hc.height] at this
    counts := List.forall_mem_cons.2 ⟨⟨hc.height ▸ hc.pos, Nat.le_of_eq hc.height.symm⟩, hc.counts⟩ }

theorem Settled.announce (hc : c.Settled ps rs h) (name : String) : Base (c.announce name) rs h := by
  refine ⟨hc.pos, fun {i d} hi => ?_, hc.base.loops⟩
  unfold Context.announce at hi
  split at hi
  · simp only [outline, Context.push, Array.toList_push, List.map_append] at hi
    by_cases hlt : i < c.locals.size
    · exact hc.height ▸ hlt
    · rw [List.getElem?_append_right (by simp; omega)] at hi
      simp [List.getElem?_cons] at hi
  · exact hc.base.free hi

theorem settle_announce (c : Context) (name : String) : (c.announce name).settle =
    c.declare (if 0 < c.depth then [⟨name, some c.depth, false⟩] else []) := by
  unfold settle
  rw [announce_depth]
  unfold announce
  split
  · exact push_markReady c name
  · exact (declare_nil c).symm

theorem settle_settle (c : Context) (name : String) :
    (c.announce name).settle.settle = (c.announce name).settle := by
  rw [settle_announce]
  split
  · rename_i hdepth
    exact (if_pos hdepth).trans (declare_markReady c name)
  · rename_i hdepth
    rw [declare_nil]
    exact if_neg hdepth

end Context

namespace Compilation

variable {K K' : Context} {A : List Context} {ps ps' : List Jump} {rs rs' : List Loop}
  {h h' : Nat} {s : Compilation} {c : Context}

theorem Stands.context (hs : Stands K A ps rs h s) (hk : K'.Kept c)
    (hcaptures : c.captures = s.context.captures) (htame : c.Tame) (hd : c.Drafted ps' rs' h') :
    Stands K' A ps' rs' h' { s with context := c } where
  calm := hs.calm
  kept := hk
  around := hs.around
  chain := by
    refine ⟨htame, ?_, hs.chain.2.2⟩
    have hlinked := hs.chain.2.1
    cases harround : s.around with
    | nil =>
      rw [harround] at hlinked
      exact hcaptures.trans hlinked
    | cons d ds =>
      rw [harround] at hlinked
      intro k hk
      exact hlinked k (hcaptures ▸ hk)
  drafted := hd

theorem Stands.locals_size (hs : Stands K A ps rs h s) : s.context.locals.size = K.locals.size :=
  hs.kept.locals_size

theorem Stands.depth_eq (hs : Stands K A ps rs h s) : s.context.depth = K.depth :=
  congrArg Context.Outline.depth hs.kept.outline_eq

theorem Stands.declared {name : String} (hs : Stands (K.announce name).settle A ps rs
    (if 0 < K.depth then h + 1 else h) s) : Declares K A ps rs h s := by
  have hle := hs.locals_size ▸ hs.chain.1.locals_le
  rw [Context.settle_announce] at hs hle
  split at hs
  · rename_i hdepth
    rw [if_pos hdepth] at hle
    exact ⟨⟨[⟨name, some K.depth, false⟩], by simp, fun _ => by simpa [Context.declare] using hle⟩, hs⟩
  · exact ⟨⟨[], by simp, by simp⟩, hs⟩

theorem Stands.declared_nil (hs : Stands K A ps rs h s) : Declares K A ps rs h s :=
  ⟨⟨[], by simp, by simp⟩, by rw [Context.declare_nil]; exact hs⟩

theorem Stands.forget {ls : List Local} {m : Nat} (hk : K.Settled ps rs h)
    (hs : Stands (K.declare ls) A ps rs h s) (hm : m = h) :
    Stands K A ps rs h { s with context := { s.context with locals := s.context.locals.take m } } := by
  subst hm
  have houtline := hs.kept.outline_eq
  simp only [Context.outline, Context.declare, Array.toList_append, List.map_append,
    Context.Outline.mk.injEq] at houtline
  obtain ⟨hdepth, hlocals, hbreakables, harity⟩ := houtline
  have hget : ∀ i < m, (s.context.locals.take m)[i]? = s.context.locals[i]? := by
    intro i hi
    simp only [Array.take_eq_extract, Array.getElem?_extract, Nat.zero_add]
    split
    · rfl
    · exact (Array.getElem?_eq_none (by omega)).symm
  have hsub : ∀ {i : Nat} {l}, (s.context.locals.take m)[i]? = some l →
      s.context.locals[i]? = some l := by
    intro i l hl
    simp only [Array.take_eq_extract, Array.getElem?_extract, Nat.zero_add] at hl
    split at hl
    · exact hl
    · simp at hl
  obtain ⟨t, ht⟩ := hs.drafted
  refine hs.context ⟨?_, hs.kept.constants, hs.kept.captures⟩ rfl
    ⟨?_, hs.chain.1.captures_le, fun hl hcap => hs.chain.1.ready (hsub hl) hcap⟩
    ⟨t, ht.congr_flagged (m := m) ?_ (Nat.le_refl m) ?_ hk.base.loops⟩
  · simp only [Context.outline, Context.Outline.mk.injEq]
    refine ⟨hdepth, ?_, hbreakables, harity⟩
    rw [Array.take_eq_extract, Array.toList_extract, List.extract_eq_take_drop, List.drop_zero,
      Nat.sub_zero, List.map_take, hlocals, List.take_append_of_le_length (by simp [hk.height]),
      List.take_of_length_le (by simp [hk.height])]
  · have := hs.chain.1.locals_le
    simp only [Array.take_eq_extract, Array.size_extract]
    omega
  · intro i hi
    simp only [Context.sketch, Context.Flagged, hget i hi]
  · intro x hx
    rcases List.mem_append.1 hx with hx | hx
    · exact hk.pending x hx
    · obtain ⟨b, hb, hx⟩ := List.mem_flatMap.1 hx
      obtain ⟨p, -, rfl⟩ := List.mem_map.1 hx
      exact (hk.counts (b.isLoop, b.localCount, b.continueTarget)
        (hs.kept.outline_eq ▸ List.mem_map_of_mem hb : _ ∈ (K.declare ls).outline.breakables)).2

end Compilation

namespace Comp

open Compilation

variable {K : Context} {A : List Context} {ps : List Jump} {rs : List Loop} {h : Nat}

/-! ## Scopes -/

theorem beginScope_spec :
    Triple (Stands K A ps rs h) beginScope fun _ => Stands K.deepen A ps rs h := by
  refine Triple.modify fun s hc => ⟨hc, fun hs => ?_⟩
  refine hs.context ⟨?_, hs.kept.constants, hs.kept.captures⟩ rfl
    ⟨hs.chain.1.locals_le, hs.chain.1.captures_le, hs.chain.1.ready⟩ hs.drafted
  have := hs.kept.outline_eq
  simp only [Context.outline, Context.deepen, Context.Outline.mk.injEq] at this ⊢
  exact ⟨by rw [this.1], this.2⟩

theorem emitAll_spec {b : Nat} (hb : 1 ≤ b) (hloops : ∀ r ∈ rs, r.height ≤ b)
    {ls : List Local} (j : Nat) (hj : b + j ≤ ls.length) :
    Triple (fun s => s.context.locals.toList = ls ∧ Stands K A ps rs (b + j) s)
      (emitAll (((ls.take (b + j)).drop b).reverse.map Context.endOp))
      fun _ s => s.context.locals.toList = ls ∧ Stands K A ps rs b s := by
  induction j with
  | zero =>
    rw [Nat.add_zero, List.drop_eq_nil_of_le (List.length_take_le _ _)]
    exact Triple.pure fun s hs => hs
  | succ j ih =>
    have hlist : ((ls.take (b + (j + 1))).drop b).reverse =
        ls[b + j] :: ((ls.take (b + j)).drop b).reverse := by
      rw [← Nat.add_assoc, List.take_succ_eq_append_getElem (by omega),
        List.drop_append_of_le_length (by simp; omega), List.reverse_append]
      rfl
    rw [hlist, List.map_cons]
    refine Triple.bind (Triple.writes (emit_run _) ?_) fun _ => ih (by omega)
    rintro s ⟨hls, hs⟩
    refine ⟨hls, hs.wrote ?_⟩
    have hop : Context.endOp ls[b + j] ≠ .closure ∧ (Context.endOp ls[b + j]).width = 0 ∧
        stackEffect (Context.endOp ls[b + j]) 0 = (1, 0) ∧ isJump (Context.endOp ls[b + j]) = false ∧
        ∀ m, s.context.Names (Context.endOp ls[b + j]) 0 m := by
      unfold Context.endOp
      split <;> exact ⟨by decide, rfl, rfl, rfl, fun _ => trivial⟩
    obtain ⟨hne, hwidth, heffect, hjump, hnames⟩ := hop
    refine Context.Drafted.emit (h := b + j) (a := 1) _ hne hwidth.symm heffect (hnames _) (by omega)
      ?_ (fun r hr => Nat.le_add_right_of_le (hloops r hr)) (fun _ => rfl) (.inr (by omega))
      (fun _ hx => hx) (fun _ hx => .inl hx) (by simp [hjump]) hs.drafted
    unfold Context.endOp
    split
    · exact .inl rfl
    · rename_i hcap
      right
      rintro i hi hi' ⟨l, hl, hcap'⟩
      obtain rfl : i = b + j := by omega
      rw [← Array.getElem?_toList, hls, List.getElem?_eq_getElem (by omega)] at hl
      exact hcap (Option.some.inj hl ▸ hcap')

/-- The variables from slot `count` on leave the frame, but stay declared. -/
theorem discardLocals_spec {count : Nat} (hk : K.Settled ps rs h) (hpos : 1 ≤ count) (hle : count ≤ h)
    (hloops : ∀ r ∈ rs, r.height ≤ count) :
    Triple (Stands K A ps rs h) (discardLocals count) fun _ => Stands K A ps rs count := by
  refine Triple.get_then fun a => At.of_triple ?_
  by_cases hsize : a.context.locals.size = h
  · obtain ⟨j, rfl⟩ := Nat.exists_eq_add_of_le hle
    have hdrop : a.context.locals.toList.drop count =
        (a.context.locals.toList.take (count + j)).drop count := by
      rw [List.take_of_length_le (by simp [hsize])]
    dsimp only
    rw [hdrop]
    refine (emitAll_spec hpos hloops j (by simp [hsize])).conseq ?_ fun _ s hs => hs.2
    rintro s ⟨rfl, hs⟩
    exact ⟨rfl, hs⟩
  · refine Triple.never ?_
    rintro s ⟨rfl, hs⟩
    exact hsize (hs.locals_size.trans hk.height.symm)

theorem endingLocals_eq {c : Context} {d b : Nat}
    (hlow : ∀ x ∈ c.outline.locals.take b, ∃ e ≤ d, x = some e)
    (hhigh : ∀ x ∈ c.outline.locals.drop b, x = some (d + 1)) :
    c.endingLocals d = (c.locals.toList.drop b).reverse := by
  simp only [Context.outline, ← List.map_take, ← List.map_drop, List.forall_mem_map] at hlow hhigh
  have hsplit : c.locals.toList.reverse = (c.locals.toList.drop b).reverse ++
      (c.locals.toList.take b).reverse := by
    rw [← List.reverse_append, List.take_append_drop]
  rw [Context.endingLocals, hsplit, List.takeWhile_append_of_pos, List.takeWhile_eq_nil_iff.2,
    List.append_nil]
  · intro hpos
    obtain ⟨e, he, hd⟩ := hlow _ (List.mem_reverse.1 (List.getElem_mem hpos))
    rw [List.get_eq_getElem, hd]
    simp [he]
  · intro l hl
    simp [hhigh l (List.mem_reverse.1 hl)]

theorem endScope_spec (hk : K.Settled ps rs h) (ls : K.deepen.Fresh) :
    Triple (Stands (K.deepen.declare ls.toList) A ps rs (h + ls.toList.length)) endScope fun _ =>
      Stands K A ps rs h := by
  refine Triple.bind (Q := fun _ => Stands (K.declare ls.toList) A ps rs (h + ls.toList.length))
    (Triple.modify fun s hc => ⟨hc, fun hs => ?_⟩) fun _ => Triple.get_then fun a => At.of_triple ?_
  · refine hs.context ⟨?_, hs.kept.constants, hs.kept.captures⟩ rfl
      ⟨hs.chain.1.locals_le, hs.chain.1.captures_le, hs.chain.1.ready⟩ hs.drafted
    have := hs.kept.outline_eq
    simp only [Context.outline, Context.deepen, Context.declare, Context.Outline.mk.injEq] at this ⊢
    exact ⟨by rw [this.1]; rfl, this.2⟩
  dsimp only
  by_cases hend : a.context.locals.size = h + ls.toList.length ∧
    a.context.endingLocals a.context.depth = (a.context.locals.toList.drop h).reverse
  · obtain ⟨hsize, hend⟩ := hend
    have hdrop : a.context.locals.toList.drop h =
        (a.context.locals.toList.take (h + ls.toList.length)).drop h := by
      rw [List.take_of_length_le (by simp [hsize])]
    rw [hend, hdrop]
    refine Triple.bind (Q := fun _ s => s.context.locals.toList = a.context.locals.toList ∧
        Stands (K.declare ls.toList) A ps rs h s)
      ((emitAll_spec hk.base.pos hk.base.loops ls.toList.length (by simp [hsize])).pre ?_)
      fun _ => Triple.modify fun s hc => ⟨hc, ?_⟩
    · rintro s ⟨rfl, hs⟩
      exact ⟨rfl, hs⟩
    rintro ⟨hls, hs⟩
    have hcount : s.context.locals.size -
        ((a.context.locals.toList.take (h + ls.toList.length)).drop h).reverse.length = h := by
      have := congrArg List.length hls
      simp only [Array.length_toList] at this
      simp [this, hsize]
    exact hs.forget hk hcount
  · refine Triple.never ?_
    rintro s ⟨rfl, hs⟩
    have houtline := hs.kept.outline_eq
    have hsize := hs.locals_size
    simp only [Context.declare, Array.size_append, ← hk.height] at hsize
    have hdepth : s.context.depth = K.depth := congrArg Context.Outline.depth houtline
    have hlength : K.outline.locals.length = h := by simp [Context.outline, hk.height]
    have hlocals : s.context.outline.locals = K.outline.locals ++ ls.toList.map (·.depth) := by
      rw [houtline]
      simp [Context.outline, Context.declare]
    refine hend ⟨by simpa using hsize, endingLocals_eq ?_ ?_⟩
    · rw [hlocals, List.take_append_of_le_length (Nat.le_of_eq hlength.symm),
        List.take_of_length_le (Nat.le_of_eq hlength), hdepth]
      exact hk.ready
    · rw [hlocals, List.drop_append_of_le_length (Nat.le_of_eq hlength.symm),
        List.drop_of_length_le (Nat.le_of_eq hlength), hdepth, List.nil_append]
      simp only [List.forall_mem_map]
      exact ls.depth_eq

/-! ## Declarations -/

theorem addLocal_spec (name : String) :
    Triple (Stands K A ps rs h) (addLocal name) fun _ => Stands (K.push name) A ps rs h := by
  refine Triple.get.bind fun a => ?_
  split
  · exact complain_spec (fun s hs => hs.2.calm) _
  rename_i hroom
  refine Triple.modify fun s hc => ⟨hc, ?_⟩
  rintro ⟨rfl, hs⟩
  have hle := hs.chain.1.locals_le
  have hroom : a.context.locals.size ≠ maxLocals := by simpa using hroom
  exact hs.context (hs.kept.push name) rfl (hs.chain.1.push name (Nat.lt_of_le_of_ne hle hroom))
    (hs.drafted.push name)

theorem declareLocal_spec :
    Triple (Stands K A ps rs h) declareLocal fun _ s =>
      ∃ name, Stands (K.announce name) A ps rs h s := by
  refine Triple.get.bind fun a => ?_
  split
  · rename_i hdepth
    refine Triple.complain_if (fun s hs => hs.2.calm) ?_
    refine Triple.pre (P := fun s => 0 < K.depth ∧ Stands K A ps rs h s) ?_ ?_
    · refine (addLocal_spec _).frame.post fun _ s hs => ⟨a.previous.text, ?_⟩
      rw [Context.announce, if_pos hs.1]
      exact hs.2
    · rintro s ⟨-, rfl, hs⟩
      exact ⟨hs.depth_eq ▸ hdepth, hs⟩
  · rename_i hdepth
    refine Triple.pure ?_
    rintro s ⟨rfl, hs⟩
    refine ⟨"", ?_⟩
    rw [Context.announce, if_neg (hs.depth_eq ▸ hdepth)]
    exact hs

theorem declareName_spec (m : Missing) : Triple (Stands K A ps rs h) (declareName m) fun i s =>
      ∃ name, Stands (K.announce name) A ps rs h s ∧ K.Titled i s.context.chunk := by
  refine expect_spec.bind fun _ => declareLocal_spec.bind fun _ => Triple.ex fun name => ?_
  refine Triple.get.bind fun a => ?_
  split
  · rename_i hdepth
    refine Triple.pure ?_
    rintro s ⟨rfl, hs⟩
    refine ⟨name, hs, fun hzero => ?_⟩
    have := hs.depth_eq
    rw [Context.announce_depth] at this
    omega
  · refine Triple.conseq (nameConstant_spec a.previous.text) (fun s hs => hs.2) fun i s hs => ?_
    exact ⟨name, hs.1, fun _ => hs.2⟩

theorem markReady_spec : Triple (Stands K A ps rs h) markReady fun _ => Stands K.settle A ps rs h := by
  refine Triple.get.bind fun a => ?_
  split
  · rename_i hdepth
    refine Triple.modify fun s hc => ⟨hc, ?_⟩
    rintro ⟨rfl, hs⟩
    rw [Context.settle, if_pos (hs.depth_eq ▸ hdepth)]
    exact hs.context hs.kept.markReady rfl hs.chain.1.markReady hs.drafted.markReady
  · rename_i hdepth
    refine Triple.pure ?_
    rintro s ⟨rfl, hs⟩
    rw [Context.settle, if_neg (hs.depth_eq ▸ hdepth)]
    exact hs

/-- The value on the stack becomes that of the variable: in a scope it stays there. -/
theorem defineVariable_spec {i : UInt8} (hb : K.depth = 0 → Context.Base K rs h) :
    Triple (fun s => Stands K A ps rs (h + 1) s ∧ K.Titled i s.context.chunk) (defineVariable i)
      fun _ => Stands K.settle A ps rs (if 0 < K.depth then h + 1 else h) := by
  refine Triple.get.bind fun a => ?_
  split
  · rename_i hdepth
    refine Triple.modify fun s hc => ⟨hc, ?_⟩
    rintro ⟨rfl, hs, -⟩
    have hdepth := hs.depth_eq ▸ hdepth
    rw [Context.settle, if_pos hdepth, if_pos hdepth]
    exact hs.context hs.kept.markReady rfl hs.chain.1.markReady hs.drafted.markReady
  · rename_i hdepth
    by_cases hzero : K.depth = 0
    · have hnot : ¬ 0 < K.depth := by omega
      rw [Context.settle, if_neg hnot, if_neg hnot]
      exact (emitWith_spec .defineGlobal rfl rfl (by decide) (hb hzero)).pre fun s hs =>
        ⟨hs.2.1, hs.2.2 hzero⟩
    · refine Triple.writes (emitWith_run _ _) ?_
      rintro s ⟨rfl, hs, -⟩
      exact absurd (hs.depth_eq.symm.trans (Nat.eq_zero_of_not_pos hdepth)) hzero

theorem defineVariable_declared {K' : Context} {name : String} {i : UInt8}
    (hdepth : K'.depth = K.depth)
    (hsettle : K'.settle = (K.announce name).settle) (hb : K'.depth = 0 → Context.Base K' rs h) :
    Triple (fun s => Stands K' A ps rs (h + 1) s ∧ K.Titled i s.context.chunk) (defineVariable i)
      fun _ => Declares K A ps rs h := by
  refine (defineVariable_spec hb).conseq (fun s hs => ⟨hs.1, fun hzero => hs.2 (hdepth ▸ hzero)⟩)
    fun _ s hs => ?_
  rw [hsettle, hdepth] at hs
  exact hs.declared

/-! ## Loops and choices -/

theorem beginBreakable_spec (isLoop : Bool) (target : Nat) :
    Triple (Stands K A ps rs h) (beginBreakable isLoop target)
      fun _ => Stands (K.enclose isLoop target) A ps rs h := by
  refine Triple.get.bind fun a => Triple.complain_if (fun s hs => hs.2.calm) ?_
  refine Triple.modify fun s hc => ⟨hc, ?_⟩
  rintro ⟨-, -, hs⟩
  refine hs.context ⟨?_, hs.kept.constants, hs.kept.captures⟩ rfl
    ⟨hs.chain.1.locals_le, hs.chain.1.captures_le, hs.chain.1.ready⟩ ?_
  · have hsize := hs.locals_size
    have := hs.kept.outline_eq
    simp only [Context.outline, Context.enclose, Context.Outline.mk.injEq, List.map_cons] at this ⊢
    exact ⟨this.1, this.2.1, by rw [hsize, this.2.2.1], this.2.2.2⟩
  · exact hs.drafted

theorem endBreakable_spec {isLoop : Bool} {target : Nat} (hh : h = K.locals.size) :
    Triple (Stands (K.enclose isLoop target) A ps rs h) endBreakable fun _ => Stands K A ps rs h := by
  refine Triple.get.bind fun a => ?_
  split
  · rename_i hnil
    refine Triple.pure ?_
    rintro s ⟨rfl, hs⟩
    have := congrArg Context.Outline.breakables hs.kept.outline_eq
    simp [Context.outline, Context.enclose, hnil] at this
  · rename_i b bs hcons
    refine Triple.bind (Q := fun _ => Stands K A (b.breakJumps.toList.map (⟨·, h, h⟩) ++ ps) rs h)
      (Triple.modify fun s hc => ⟨hc, ?_⟩) fun _ => patchAll_spec _
    rintro ⟨rfl, hs⟩
    have houtline := hs.kept.outline_eq
    simp only [Context.outline, Context.enclose, Context.Outline.mk.injEq, hcons, List.map_cons,
      List.cons.injEq, Prod.mk.injEq] at houtline
    obtain ⟨hdepth, hlocals, ⟨⟨-, hcount, -⟩, hbreakables⟩, harity⟩ := houtline
    refine hs.context ⟨?_, hs.kept.constants, hs.kept.captures⟩ rfl
      ⟨hs.chain.1.locals_le, hs.chain.1.captures_le, hs.chain.1.ready⟩ ?_
    · simp only [Context.outline, Context.Outline.mk.injEq]
      exact ⟨hdepth, hlocals, hbreakables, harity⟩
    · obtain ⟨t, ht⟩ := hs.drafted
      refine ⟨t, ht.congr_pending fun x => ?_⟩
      simp only [Context.sketch, Context.exits, hcons, List.flatMap_cons, hcount, ← hh,
        List.mem_append]
      tauto

end Comp

end Parlance
