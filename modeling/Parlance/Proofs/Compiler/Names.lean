/-
  Constants and variables.
-/
import Parlance.Proofs.Compiler.Emission
import Parlance.Proofs.Compiler.Laws

namespace Parlance

theorem Compilation.Stands.addConstant {K : Context} {A : List Context} {ps : List Jump}
    {rs : List Loop} {h : Nat} {s : Compilation} (hs : Stands K A ps rs h s) {k : Constant}
    (hfun : ∀ q, k = .function q → q.Sound ∧ q.Sane)
    (hlt : s.context.chunk.constants.size < maxConstants) :
    Stands K A ps rs h { s with context := s.context.addConstant k } := by
  obtain ⟨t, ht⟩ := hs.drafted
  have hconst : ∀ (i : Nat) x, s.context.chunk.constants[i]? = some x →
      (s.context.chunk.constants.push k)[i]? = some x := by
    intro i x hx
    rw [Array.getElem?_push_lt (Array.getElem?_eq_some_iff.1 hx).1]
    exact (Array.getElem?_eq_getElem _).symm.trans hx
  have hnested : ∀ q, Constant.function q ∈ s.context.chunk.constants.push k → q.Sound ∧ q.Sane := by
    intro q hq
    rcases Array.mem_push.1 hq with hq | hq
    · exact ht.nested q hq
    · exact hfun q hq.symm
  constructor
  case calm => exact hs.calm
  case kept =>
    exact ⟨hs.kept.outline_eq, fun i x hx => hconst i x (hs.kept.constants i x hx), hs.kept.captures⟩
  case around => exact hs.around
  case chain => exact ⟨⟨hs.chain.1.locals_le, hs.chain.1.captures_le, hs.chain.1.ready⟩, hs.chain.2⟩
  case drafted =>
    exact ⟨t, ht.grow (fun _ hi => hi) (Nat.le_refl _) hconst
      (by simpa using Nat.succ_le_of_lt hlt) hnested⟩

namespace Comp

open Compilation

variable {K : Context} {A : List Context} {ps : List Jump} {rs : List Loop} {h b : Nat}

/-! ## Constants -/

theorem poolIndex_spec (k : Constant) {R : Context → Prop}
    (hR : ∀ {c : Context}, R c → R (c.addConstant k)) :
    Triple (fun s => (∀ q, k = .function q → q.Sound ∧ q.Sane) ∧ R s.context ∧ Stands K A ps rs h s)
    (poolIndex k)
      fun i s => R s.context ∧ Stands K A ps rs h s ∧
        s.context.chunk.constants[i.toNat]? = some k := by
  refine Triple.get.bind fun a => ?_
  refine Triple.bind (Q := fun _ s => s.panicking = false ∧
    (a.context.chunk.constants.size < maxConstants → R s.context ∧ Stands K A ps rs h s ∧
      s.context.chunk.constants[a.context.chunk.constants.size]? = some k))
    (Triple.modify fun s hs => ⟨hs, ?_⟩) fun _ => ?_
  · rintro ⟨rfl, hfun, hr, hstands⟩
    exact ⟨hstands.calm, fun hlt => ⟨hR hr, hstands.addConstant hfun hlt, by simp [Chunk.addConstant]⟩⟩
  · unfold operandAt
    split
    · exact (complain_spec (fun s hs => hs.1) _).bind (Q := fun _ _ => False) fun _ =>
        Triple.pure fun _ hs => hs.elim
    · rename_i hlt
      refine Triple.pure fun s hs => ?_
      obtain ⟨hr, hstands, hk⟩ := hs.2 (Nat.not_le.1 hlt)
      have : (UInt8.ofNat a.context.chunk.constants.size).toNat = a.context.chunk.constants.size :=
        UInt8.toNat_ofNat_of_lt' (Nat.not_le.1 hlt)
      exact ⟨hr, hstands, this.symm ▸ hk⟩

theorem record_spec (b : Build) : Triple (Stands K A ps rs h) (record b) fun _ => Stands K A ps rs h :=
  Triple.modify fun _ hc => ⟨hc, fun hs => { hs with }⟩

theorem makeConstant_spec {k : Constant} (hk : ∀ q, k ≠ .function q) :
    Triple (Stands K A ps rs h) (makeConstant k)
      fun i s => Stands K A ps rs h s ∧ s.context.chunk.constants[i.toNat]? = some k :=
  (record_spec _).bind fun _ => Triple.conseq (poolIndex_spec k (R := fun _ => True) fun _ => trivial)
    (fun _ hs => ⟨fun q hq => absurd hq (hk q), trivial, hs⟩) fun _ _ hs => hs.2

theorem emitConstant_spec {k : Constant} (hk : ∀ q, k ≠ .function q) (hb : Context.Base K rs h) :
    Triple (Stands K A ps rs h) (emitConstant k) fun _ => Stands K A ps rs (h + 1) :=
  (makeConstant_spec hk).bind fun i =>
    (emitWith_spec .constant rfl rfl (by decide) hb).pre fun _ hs => ⟨hs.1, k, hs.2⟩

theorem nameConstant_spec (name : String) : Triple (Stands K A ps rs h) (nameConstant name)
      fun i s => Stands K A ps rs h s ∧ ∃ x, s.context.chunk.constants[i.toNat]? = some (.text x) := by
  refine Triple.get.bind fun a => ?_
  dsimp only
  split
  · rename_i i hi
    obtain ⟨hfind, hlt⟩ := Option.filter_eq_some_iff.1 hi
    obtain ⟨hsize, htext, -⟩ := Array.findIdx?_eq_some_iff_getElem.1 hfind
    have hindex : (UInt8.ofNat i).toNat = i := UInt8.toNat_ofNat_of_lt' (of_decide_eq_true hlt)
    refine Triple.bind (Q := fun _ s => s.context = a.context ∧ Stands K A ps rs h s) ?_ fun _ =>
      Triple.pure ?_
    · refine Triple.modify fun s hc => ⟨hc, ?_⟩
      rintro ⟨rfl, hs⟩
      exact ⟨rfl, { hs with }⟩
    · rintro s ⟨hcontext, hs⟩
      refine ⟨hs, ?_⟩
      rw [hcontext, hindex, Array.getElem?_eq_getElem hsize]
      unfold Constant.isText at htext
      split at htext
      · rename_i x hx
        exact ⟨x, congrArg some hx⟩
      · cases htext
  · refine ((record_spec _).pre fun _ hs => hs.2).bind fun _ => ?_
    exact Triple.conseq (poolIndex_spec (.text name) (R := fun _ => True) fun _ => trivial)
      (fun _ hs => ⟨by simp, trivial, hs⟩) fun _ _ hs => ⟨hs.2.1, name, hs.2.2⟩

end Comp

/-! ## Captures -/

namespace Context

variable {c d d' : Context} {ds : List Context} {slot : Nat}

theorem findBelow?_lt {locals : Array Local} {name : String} {m : Nat}
    (h : findBelow? locals name m = some slot) : slot < m := by
  induction m with
  | zero => simp [findBelow?] at h
  | succ m ih =>
    rw [findBelow?] at h
    split at h
    · split at h
      · cases h
        omega
      · exact Nat.lt_succ_of_lt (ih h)
    · exact Nat.lt_succ_of_lt (ih h)

theorem findLocal?_lt {name : String} (h : c.findLocal? name = some slot) : slot < c.locals.size :=
  findBelow?_lt h

theorem ready_of_isUnready (h : slot < c.locals.size) (hready : c.isUnready slot = false) :
    ∃ e, c.outline.locals[slot]? = some (some e) := by
  simp only [isUnready, Array.getElem?_eq_getElem h, Option.isNone_eq_false_iff,
    Option.isSome_iff_exists] at hready
  obtain ⟨e, he⟩ := hready
  exact ⟨e, by simp [outline, h, he]⟩

theorem Grown.offers (hg : d.Grown d') {k : Capture} (hk : d.Offers k) : d'.Offers k := by
  unfold Offers at hk ⊢
  split at hk
  · rw [if_pos ‹_›]
    exact hg.flagged _ hk
  · rw [if_neg ‹_›]
    exact Nat.lt_of_lt_of_le hk hg.captures

theorem Grown.linked (hg : d.Grown d') (hl : c.Linked (d :: ds)) (ds' : List Context) :
    c.Linked (d' :: ds') := fun k hk => hg.offers (hl k hk)

theorem setCaptures_self (c : Context) : c.setCaptures c.captures = c := by
  obtain ⟨name, arity, chunk, locals, captures, _, rfl⟩ := c
  rfl

theorem proto_upvalueCount (c : Context) : c.proto.upvalueCount = c.captures.size :=
  congrArg Nat.cast c.counted

theorem Grown.of_captures {captures : Array Capture} (h : c.captures.size ≤ captures.size) :
    c.Grown (c.setCaptures captures) :=
  ⟨rfl, rfl, rfl, rfl, rfl, rfl, fun _ hi => hi, h⟩

theorem getElem?_markCaptured (c : Context) (slot i : Nat) : (c.markCaptured slot).locals[i]? =
    if slot = i then c.locals[i]?.map fun l => { l with isCaptured := true } else c.locals[i]? :=
  Array.getElem?_modify

theorem markCaptured_grown (c : Context) (slot : Nat) : c.Grown (c.markCaptured slot) := by
  refine ⟨rfl, rfl, rfl, rfl, rfl, List.ext_getElem? fun i => ?_, ?_, Nat.le_refl _⟩
  · simp only [List.getElem?_map, Array.getElem?_toList, getElem?_markCaptured]
    split <;> simp [Function.comp_def]
  · rintro i ⟨l, hl, hcap⟩
    simp only [Flagged, getElem?_markCaptured, hl]
    split
    · exact ⟨_, rfl, rfl⟩
    · exact ⟨l, rfl, hcap⟩

theorem markCaptured_flagged (h : slot < c.locals.size) : (c.markCaptured slot).Flagged slot := by
  refine ⟨{ c.locals[slot] with isCaptured := true }, ?_, rfl⟩
  rw [getElem?_markCaptured, if_pos rfl, Array.getElem?_eq_getElem h]
  rfl

theorem markCaptured_tame (hc : c.Tame) (h : slot < c.locals.size)
    (hready : c.isUnready slot = false) : (c.markCaptured slot).Tame := by
  refine ⟨by simpa [markCaptured] using hc.locals_le, hc.captures_le, fun {i l} hl hcap => ?_⟩
  rw [getElem?_markCaptured] at hl
  split at hl
  · rename_i hi
    subst hi
    rw [Array.getElem?_eq_getElem h] at hl
    obtain rfl := Option.some.inj hl
    simpa [isUnready, h, Option.isSome_iff_exists] using hready
  · exact hc.ready hl hcap

theorem forward_cases (r : Resolution) (inner : Context) (k : Capture) :
    (∃ i, inner.captures.findIdx? (· == k) = some i ∧
      r.forward inner k = { r with index? := some i, inner }) ∨
    (inner.captures.size ≠ maxUpvalues ∧ inner.captures.findIdx? (· == k) = none ∧
      r.forward inner k = { r with
        index? := some inner.captures.size, inner := inner.setCaptures (inner.captures.push k) }) ∨
    r.forward inner k =
      { r with index? := some 0, inner, complaints := r.complaints ++ [.limit .upvalues] } := by
  cases hfind : inner.captures.findIdx? (· == k) with
  | some i =>
    left
    exact ⟨i, rfl, by simp [Resolution.forward, addCapture, hfind]⟩
  | none =>
    right
    by_cases hfull : inner.captures.size = maxUpvalues
    · right
      simp [Resolution.forward, addCapture, hfind, hfull]
    · left
      exact ⟨hfull, rfl, by simp [Resolution.forward, addCapture, hfind, hfull]⟩

theorem forward_spec (r : Resolution) (inner : Context) (k : Capture)
    (hle : inner.captures.size ≤ maxUpvalues) (hnone : (r.forward inner k).complaints = []) :
    r.complaints = [] ∧ ∃ i captures, r.forward inner k =
        { r with index? := some i, inner := inner.setCaptures captures } ∧
      i < captures.size ∧ captures.size ≤ maxUpvalues ∧ inner.captures.size ≤ captures.size ∧
      ∀ k' ∈ captures, k' ∈ inner.captures ∨ k' = k := by
  rcases forward_cases r inner k with ⟨i, hi, heq⟩ | ⟨hroom, -, heq⟩ | heq
  · rw [heq] at hnone ⊢
    obtain ⟨hlt, -⟩ := Array.findIdx?_eq_some_iff_getElem.1 hi
    exact ⟨hnone, i, inner.captures, by rw [inner.setCaptures_self], hlt, hle, Nat.le_refl _,
      fun k' hk' => .inl hk'⟩
  · rw [heq] at hnone ⊢
    exact ⟨hnone, _, _, rfl, by simp, by simp; omega, by simp, fun k' hk' => Array.mem_push.1 hk'⟩
  · simp [heq] at hnone

end Context

theorem capture_spec (name : String) (inner : Context) (around : List Context)
    (hchain : Chain (inner :: around)) (hnone : (capture name inner around).complaints = []) :
    (∃ captures, (capture name inner around).inner = inner.setCaptures captures ∧
      inner.captures.size ≤ captures.size) ∧
    List.Forall₂ Context.Grown around (capture name inner around).around ∧
    Chain ((capture name inner around).inner :: (capture name inner around).around) ∧
    ∀ i ∈ (capture name inner around).index?, i < (capture name inner around).inner.captures.size := by
  induction around generalizing inner with
  | nil =>
    exact ⟨⟨inner.captures, inner.setCaptures_self.symm, Nat.le_refl _⟩, .nil,
      hchain, by simp [capture]⟩
  | cons c cs ih =>
    obtain ⟨htame, hlinked, hrest⟩ := hchain
    cases hfind : c.findLocal? name with
    | some slot =>
      have hslot := Context.findLocal?_lt hfind
      simp only [capture, hfind] at hnone ⊢
      obtain ⟨hready, i, captures, heq, hi, hmax, hsize, hmem⟩ :=
        Context.forward_spec _ _ _ htame.captures_le hnone
      have hready : c.isUnready slot = false := by simpa using hready
      rw [heq]
      have hgrown := c.markCaptured_grown slot
      refine ⟨⟨captures, rfl, hsize⟩, .cons hgrown (List.forall₂_same.2 fun d _ => .refl d),
        ⟨?_, ?_, ?_⟩,
        fun j hj => Option.some.inj hj ▸ hi⟩
      · exact ⟨htame.locals_le, hmax, htame.ready⟩
      · intro k hk
        rcases hmem k hk with hk | rfl
        · exact hgrown.linked hlinked cs k hk
        · have : (UInt8.ofNat slot).toNat = slot :=
            UInt8.toNat_ofNat_of_lt' (Nat.lt_of_lt_of_le hslot hrest.1.locals_le)
          simpa [Context.Offers, this] using Context.markCaptured_flagged hslot
      · exact ⟨Context.markCaptured_tame hrest.1 hslot hready, hrest.2⟩
    | none =>
      cases hindex : (capture name c cs).index? with
      | none =>
        simp only [capture, hfind, hindex] at hnone ⊢
        obtain ⟨⟨captures, heq, hsize⟩, hgrown, hchain, -⟩ := ih c hrest hnone
        have hc : c.Grown (capture name c cs).inner := heq ▸ .of_captures hsize
        exact ⟨⟨inner.captures, inner.setCaptures_self.symm, Nat.le_refl _⟩, .cons hc hgrown,
          ⟨htame, hc.linked hlinked _, hchain⟩, by simp⟩
      | some j =>
        simp only [capture, hfind, hindex] at hnone ⊢
        obtain ⟨hnone', i, captures, heq, hi, hmax, hsize, hmem⟩ :=
          Context.forward_spec _ _ _ htame.captures_le hnone
        obtain ⟨⟨captures', heq', hsize'⟩, hgrown, hchain, hj⟩ := ih c hrest hnone'
        have hc : c.Grown (capture name c cs).inner := heq' ▸ .of_captures hsize'
        have hj := hj j hindex
        rw [heq]
        refine ⟨⟨captures, rfl, hsize⟩, .cons hc hgrown,
          ⟨⟨htame.locals_le, hmax, htame.ready⟩, ?_, hchain⟩,
          fun j hj => Option.some.inj hj ▸ hi⟩
        intro k hk
        rcases hmem k hk with hk | rfl
        · exact hc.linked hlinked (capture name c cs).around k hk
        · have : (UInt8.ofNat j).toNat = j :=
            UInt8.toNat_ofNat_of_lt' (Nat.lt_of_lt_of_le hj hchain.1.captures_le)
          simpa [Context.Offers, this] using hj

theorem Context.grown_trans {cs cs' cs'' : List Context} (h : List.Forall₂ Context.Grown cs cs')
    (h' : List.Forall₂ Context.Grown cs' cs'') : List.Forall₂ Context.Grown cs cs'' := by
  induction h generalizing cs'' with
  | nil => exact h'
  | cons hc _ ih =>
    cases h' with
    | cons hc' h' => exact .cons (hc.trans hc') (ih h')

theorem Compilation.Stands.captured {K : Context} {A : List Context} {ps : List Jump}
    {rs : List Loop} {h : Nat} {s : Compilation} (hs : Stands K A ps rs h s) (name : String)
    (hnone : (capture name s.context s.around).complaints = []) :
    Stands K A ps rs h (s.after (capture name s.context s.around)) := by
  obtain ⟨⟨captures, heq, hsize⟩, hgrown, hchain, -⟩ := capture_spec name _ _ hs.chain hnone
  have hc : s.context.Grown (capture name s.context s.around).inner := heq ▸ .of_captures hsize
  constructor
  case calm => exact hs.calm
  case kept => exact hs.kept.trans hc.kept
  case around => exact Context.grown_trans hs.around hgrown
  case chain => exact hchain
  case drafted => exact hs.drafted.grown hc

/-! ## Variables -/

/-- The variable can be read and written, with at least `b` values on the frame. -/
def Comp.Access.Serves (v : Comp.Access) (c : Context) (b : Nat) : Prop :=
  (v.read = .getLocal ∧ v.write = .setLocal ∨ v.read = .getUpvalue ∧ v.write = .setUpvalue ∨
    v.read = .getGlobal ∧ v.write = .setGlobal) ∧ c.Names v.read v.operand.toNat b

theorem Comp.Access.Serves.kept {v : Comp.Access} {c c' : Context} {b : Nat} (hk : c.Kept c')
    (hv : v.Serves c b) : v.Serves c' b := ⟨hv.1, hv.2.kept hk⟩

namespace Comp

open Compilation

variable {K : Context} {A : List Context} {ps : List Jump} {rs : List Loop} {h b : Nat}

theorem complainAll_spec (cs : List Complaint) {P : Compilation → Prop}
    (hP : ∀ s, P s → s.panicking = false) : Triple P (complainAll cs) fun _ s => cs = [] ∧ P s := by
  induction cs generalizing P with
  | nil => exact Triple.pure fun s hs => ⟨rfl, hs⟩
  | cons c cs ih =>
    refine (complain_spec hP c).bind (Q := fun _ _ => False) fun _ => ?_
    exact Triple.never fun _ hs => hs

theorem accessLocal_spec {name : String} {a : Compilation} {slot : Nat} (hb : Context.Base K rs b)
    (hfind : a.context.findLocal? name = some slot) :
    Triple (fun s => s = a ∧ Stands K A ps rs h a) (accessLocal a.context slot)
      fun v s => Stands K A ps rs h s ∧ v.Serves s.context b := by
  unfold accessLocal
  refine Triple.complain_if ?_ (Triple.pure ?_)
  · rintro s ⟨rfl, hs⟩
    exact hs.calm
  rintro s ⟨hready, rfl, hs⟩
  have hlt := Context.findLocal?_lt hfind
  obtain ⟨d, hd⟩ := Context.ready_of_isUnready hlt (by simpa using hready)
  have hindex : (UInt8.ofNat slot).toNat = slot :=
    UInt8.toNat_ofNat_of_lt' (Nat.lt_of_lt_of_le hlt hs.chain.1.locals_le)
  refine ⟨hs, .inl ⟨rfl, rfl⟩, ?_⟩
  show (UInt8.ofNat slot).toNat < b
  rw [hindex]
  exact hb.free (hs.kept.outline_eq ▸ hd)

/-- What a name stands for can be read and written. -/
theorem resolve_spec (name : String) (hb : Context.Base K rs b) :
    Triple (Stands K A ps rs h) (resolve name)
      fun v s => Stands K A ps rs h s ∧ v.Serves s.context b := by
  refine Triple.get_then fun a => ?_
  cases hfind : a.context.findLocal? name with
  | some slot => exact At.of_triple (accessLocal_spec hb hfind)
  | none =>
    refine At.set_then (fun hc => hc) (At.of_triple ?_)
    refine (complainAll_spec _ ?_).bind fun _ => ?_
    · rintro s ⟨rfl, hs⟩
      exact hs.calm
    split
    · rename_i i hi
      refine Triple.pure ?_
      rintro s ⟨hnone, rfl, hs⟩
      obtain ⟨-, -, hchain, hindex⟩ := capture_spec name _ _ hs.chain hnone
      have hlt := hindex i hi
      have htoNat : (UInt8.ofNat i).toNat = i :=
        UInt8.toNat_ofNat_of_lt' (Nat.lt_of_lt_of_le hlt hchain.1.captures_le)
      refine ⟨hs.captured name hnone, .inr (.inl ⟨rfl, rfl⟩), ?_⟩
      show (UInt8.ofNat i).toNat < _
      rw [htoNat]
      exact hlt
    · refine Triple.bind ((nameConstant_spec name).pre (P := Stands K A ps rs h) ?_) fun i =>
        Triple.pure ?_
      · rintro s ⟨hnone, rfl, hs⟩
        exact hs.captured name hnone
      · rintro s ⟨hs, hx⟩
        exact ⟨hs, .inr (.inr ⟨rfl, rfl⟩), hx⟩

theorem read_spec {v : Access} (hb : Context.Base K rs b) (hle : b ≤ h) :
    Triple (fun s => Stands K A ps rs h s ∧ v.Serves s.context b) (emitWith v.read v.operand)
      fun _ s => Stands K A ps rs (h + 1) s ∧ v.Serves s.context b := by
  refine Triple.writes (emitWith_run _ _) ?_
  rintro s ⟨hs, hv⟩
  refine ⟨hs.wrote ?_, hv.1, ?_⟩
  · obtain ⟨read, write, operand⟩ := v
    have hplain : stackEffect read operand.toNat = (0, 1) ∧ read.width = 1 ∧ read ≠ .closure ∧
        isJump read = false := by
      rcases hv.1 with ⟨rfl, -⟩ | ⟨rfl, -⟩ | ⟨rfl, -⟩ <;> exact ⟨rfl, rfl, by decide, rfl⟩
    obtain ⟨heffect, hwidth, hne, hjump⟩ := hplain
    exact hs.drafted.emit (a := 0) _ hne hwidth.symm heffect (hv.2.mono hle) (hb.mono hle).pos
      (.inr fun i hi hi' => by omega) (hb.mono hle).loops (fun _ => rfl) (.inr (by omega))
      (fun _ hx => hx) (fun _ hx => .inl hx) (by simp [hjump])
  · exact hv.2.kept ⟨rfl, fun i x hx => by
      simpa [Compilation.wrote, Context.wrote] using hx, Nat.le_refl _⟩

theorem write_spec {v : Access} (hb : Context.Base K rs b) (hle : b ≤ h) :
    Triple (fun s => Stands K A ps rs (h + 1) s ∧ v.Serves s.context b) (emitWith v.write v.operand)
      fun _ => Stands K A ps rs (h + 1) := by
  refine Triple.writes (emitWith_run _ _) ?_
  rintro s ⟨hs, hv⟩
  refine hs.wrote ?_
  obtain ⟨read, write, operand⟩ := v
  have hplain : stackEffect write operand.toNat = (1, 1) ∧ write.width = 1 ∧ write ≠ .closure ∧
      isJump write = false ∧ s.context.Names write operand.toNat b := by
    obtain ⟨⟨rfl, rfl⟩ | ⟨rfl, rfl⟩ | ⟨rfl, rfl⟩, hn⟩ := hv <;> exact ⟨rfl, rfl, by decide, rfl, hn⟩
  obtain ⟨heffect, hwidth, hne, hjump, hn⟩ := hplain
  exact hs.drafted.emit _ hne hwidth.symm heffect (hn.mono (by omega)) (hb.mono hle).pos
    (.inr fun i hi _ => hs.not_flagged hb (by omega)) (hb.mono hle).loops (fun _ => rfl)
    (.inr (by omega)) (fun _ hx => hx) (fun _ hx => .inl hx) (by simp [hjump])

end Comp

end Parlance
