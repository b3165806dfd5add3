/-
  Functions inside functions.
-/
import Parlance.Proofs.Compiler.Scopes

namespace Parlance

/-! ## Closures -/

/-- How a closure writes a variable that it captures. -/
def Capture.bytes (k : Capture) : List UInt8 := [if k.isLocal then 1 else 0, k.index]

theorem Capture.getElem?_bytes {ks : List Capture} {j : Nat} {k : Capture} (h : ks[j]? = some k) :
    (ks.flatMap bytes)[2 * j]? = some (if k.isLocal then 1 else 0) ∧
    (ks.flatMap bytes)[2 * j + 1]? = some k.index := by
  induction ks generalizing j with
  | nil => simp at h
  | cons k' ks ih =>
    cases j with
    | zero =>
      cases h
      exact ⟨rfl, rfl⟩
    | succ j =>
      obtain ⟨hkind, hindex⟩ := ih h
      rw [List.flatMap_cons, Nat.mul_succ]
      exact ⟨hkind, hindex⟩

theorem Capture.length_bytes (ks : List Capture) : (ks.flatMap bytes).length = 2 * ks.length := by
  induction ks with
  | nil => rfl
  | cons k ks ih => simp [ih, bytes]; omega

namespace Context

variable {c : Context} {ps : List Jump} {rs : List Loop} {h : Nat} {p : Proto}
  {ks : List Capture} {i : UInt8}

/-- A closure leaves one value. The slot of that value may be one that it captures. -/
theorem Drafted.closure (hd : c.Drafted ps rs h) (line : Int)
    (hp : c.chunk.constants[i.toNat]? = some (.function p)) (hcount : p.upvalueCount = ks.length)
    (hpos : 1 ≤ h) (hlocals : c.locals.size ≤ h + 1) (hloops : ∀ r ∈ rs, r.height ≤ h)
    (hks : ∀ k ∈ ks, c.Offers k) :
    (c.wrote line (Op.closure.toByte :: i :: ks.flatMap Capture.bytes)).Drafted ps rs (h + 1) := by
  obtain ⟨t, ht⟩ := hd
  obtain ⟨bs, hbs⟩ : ∃ bs, bs = Op.closure.toByte :: i :: ks.flatMap Capture.bytes := ⟨_, rfl⟩
  obtain ⟨C, hC⟩ : ∃ C, C = c.chunk.writes line bs := ⟨_, rfl⟩
  rw [← hbs, wrote, ← hC]
  have hbyte : ∀ j, C.byte (c.chunk.code.size + j) = (bs[j]?.map UInt8.toNat).getD 0 := fun j => by
    rw [hC, Chunk.byte_writes]
  have hconst : C.constants = c.chunk.constants := hC ▸ c.chunk.writes_constants line _
  have hcallee : C.callee? c.chunk.code.size = some p := by
    simp [Chunk.callee?, hbyte, hconst, hbs, hp]
  have hcaptures : C.captureCount c.chunk.code.size = ks.length := by
    simp [Chunk.captureCount, hcallee, hcount]
  have hlength : C.length .closure c.chunk.code.size = 2 + 2 * ks.length := by
    rw [← hcaptures]
    rfl
  have hbytes : bs.length = 2 + 2 * ks.length := by
    rw [hbs, List.length_cons, List.length_cons, Capture.length_bytes]
    omega
  have hsize : C.code.size = c.chunk.code.size + (2 + 2 * ks.length) := by
    simp [hC, hbytes]
  have hpair : ∀ j < ks.length, ∃ k ∈ ks,
      C.byte (c.chunk.code.size + 2 + 2 * j) = (if k.isLocal then 1 else 0) ∧
      C.byte (c.chunk.code.size + 3 + 2 * j) = k.index.toNat := by
    intro j hj
    obtain ⟨hkind, hindex⟩ := Capture.getElem?_bytes (List.getElem?_eq_getElem hj)
    refine ⟨ks[j], List.getElem_mem hj, ?_, ?_⟩
    · rw [Nat.add_assoc, hbyte, hbs, Nat.add_comm 2, List.getElem?_cons_succ,
        List.getElem?_cons_succ, hkind]
      split <;> rfl
    · rw [Nat.add_assoc, hbyte, hbs, show 3 + 2 * j = 2 * j + 1 + 1 + 1 by omega,
        List.getElem?_cons_succ, List.getElem?_cons_succ, hindex]
      rfl
  have hslot : ∀ j, C.CapturesSlot c.chunk.code.size j → c.Flagged j := by
    rintro j ⟨j', hj', hkind, hindex⟩
    obtain ⟨k, hk, hkind', hindex'⟩ := hpair j' (hcaptures ▸ hj')
    have hoffer := hks k hk
    rw [hkind] at hkind'
    have hlocal : k.isLocal = true := by
      by_contra hne
      simp [hne] at hkind'
    rw [Offers, if_pos hlocal, ← hindex', hindex] at hoffer
    exact hoffer
  have hsane : C.Sane .closure c.chunk.code.size := by
    rintro - q hq
    obtain rfl : p = q := Option.some.inj (hcallee.symm.trans hq)
    exact (ht.nested p (Array.mem_of_getElem? hp)).2
  have hfits : C.Fits c.captures.size .closure c.chunk.code.size ((c.sketch ps rs h).wide h) := by
    refine ⟨Chunk.op?_of_toByte (by simp [hC, hbs]), hpos, ⟨p, hcallee⟩,
      fun _ => Nat.le_of_eq (by rw [hlength, hsize]), fun _ _ j hj => ?_⟩
    obtain ⟨k, hk, hkind, hindex⟩ := hpair j (hcaptures ▸ hj)
    have hoffer := hks k hk
    rw [hkind, hindex]
    unfold Offers at hoffer
    split at hoffer
    · obtain ⟨l, hl, -⟩ := hoffer
      have hlt := (Array.getElem?_eq_some_iff.1 hl).1
      have : k.index.toNat ≤ h := by omega
      exact ⟨fun hzero => by simp_all, fun _ => this⟩
    · exact ⟨fun _ => by exact_mod_cast hoffer, fun hone => by simp_all⟩
  have htidy : C.Tidy .closure c.chunk.code.size ((c.sketch ps rs h).wide h) := by
    refine ⟨hsane, fun _ j hj hj' => absurd hj (Nat.not_le.2 hj'), fun _ j hj => ?_⟩
    obtain ⟨k, -, hkind, -⟩ := hpair j (hcaptures ▸ hj)
    rw [hkind]
    split
    · exact .inr rfl
    · exact .inl rfl
  refine ⟨_, ht.append (fun i hi => hC ▸ c.chunk.getElem?_writes line _ hi) hconst
    (hsize.trans (congrArg _ hlength.symm)) ?_ hfits htidy hloops ?_ ?_ (fun _ hx => hx)
    (fun _ hx => .inl hx) (fun hj => by cases hj)⟩
  · have : c.chunk.lines.size = c.chunk.code.size := ht.lines_eq
    simp [hC, this]
  · have : h ≤ 512 + c.chunk.code.size := ht.low
    show h + 1 ≤ 512 + C.code.size
    omega
  · rintro -
    refine ⟨rfl, ?_⟩
    rintro j (⟨hj, hopen⟩ | ⟨-, hcapture⟩)
    · exact ⟨Nat.lt_succ_of_lt hopen.1, hopen.2⟩
    · obtain ⟨l, hl, hcap⟩ := hslot j hcapture
      have hlt := (Array.getElem?_eq_some_iff.1 hl).1
      exact ⟨Nat.lt_of_lt_of_le hlt hlocals, l, hl, hcap⟩

/-! ## The end of a function -/

theorem proto_chunk (c : Context) : c.proto.chunk = c.chunk := by
  simp [proto, Proto.chunk]

theorem Drafted.sound (hd : c.Drafted [] [] h) (line : Int) (hpos : 1 ≤ h) (hexits : c.exits = [])
    (hfree : ¬ c.Flagged h) (harity : c.arity ≤ 255) :
    ((c.wrote line [Op.pushNul.toByte]).wrote line [Op.return.toByte]).proto.Sound := by
  obtain ⟨d, hdef⟩ : ∃ d, d = c.wrote line [Op.pushNul.toByte] := ⟨_, rfl⟩
  obtain ⟨t, ht⟩ : d.Drafted [] [] (h + 1) := by
    rw [hdef]
    exact hd.emit (a := 0) line (by decide) rfl rfl trivial hpos
      (.inr fun i hi hi' => by omega) (by simp)
      (fun _ => rfl) (.inr (by omega)) (by simp) (by simp) (fun hj => by cases hj)
  rw [← hdef]
  -- no control comes to the end of the code, so the chart does not depend on the height there
  have hends : ∀ h' ≤ 512, ((d.wrote line [Op.return.toByte]).sketch [] [] h').Draft fun i =>
      if i = d.chunk.code.size then some ((d.sketch [] [] (h + 1)).wide (h + 1)) else t i := by
    intro h' hh'
    refine @draft_emit d [] [] [] h h' 1 0 .return [] line (by decide) rfl rfl trivial hpos
      (.inr fun i hi hi' => ?_)
      (by simp) (fun hf => by cases hf) (.inl hh') (by simp) (by simp) (fun hj => by cases hj) t ht
    obtain rfl : i = h := by omega
    rw [hdef]
    exact hfree
  have hsize : (d.wrote line [Op.return.toByte]).chunk.code.size = d.chunk.code.size + 1 := by
    simp [wrote]
  have hlast : (d.wrote line [Op.return.toByte]).chunk.op? d.chunk.code.size = some .return :=
    Chunk.op?_of_toByte (by simp [wrote])
  refine .intro _ ((hends 0 (by omega)).assembled (hends 1 (by omega)) ?_ rfl (proto_chunk _) rfl ?_
      (proto_upvalueCount _) ?_ ?_)
    fun q hq => ((hends 0 (by omega)).nested q ?_).1
  · rw [hdef]
    exact hexits
  · rw [hdef]
    exact harity
  · show Chunk.op? _ ((d.wrote line [Op.return.toByte]).chunk.code.size - 1) = _
    rw [hsize]
    exact hlast
  · show Option.isSome
      (if (d.wrote line [Op.return.toByte]).chunk.code.size - 1 = _ then _ else _) = true
    rw [hsize]
    simp
  · exact Array.mem_toList_iff.1 hq

theorem drafted_empty (hchunk : c.chunk = {}) (hbreak : c.breakables = []) (harity : c.arity ≤ 256) :
    c.Drafted [] [] (1 + c.arity) := by
  have hsize : (c.sketch [] [] (1 + c.arity)).size = 0 := by
    show c.chunk.code.size = 0
    rw [hchunk]
    rfl
  refine ⟨fun _ => none, ?_⟩
  constructor
  case lines_eq =>
    show c.chunk.lines.size = c.chunk.code.size
    rw [hchunk]
    rfl
  case pool =>
    show c.chunk.constants.size ≤ maxConstants
    rw [hchunk]
    exact Nat.zero_le _
  case nested =>
    intro q hq
    have hq : Constant.function q ∈ c.chunk.constants := hq
    simp [hchunk] at hq
  case low =>
    show 1 + c.arity ≤ 512 + _
    omega
  case step => simp
  case apart => simp
  case entry => exact ⟨_, if_pos hsize.symm, rfl⟩
  case waits =>
    intro x hx
    simp [sketch, exits, hbreak] at hx
  case entries => simp [sketch]
  case held => simp [sketch]
  case starts => simp [sketch]
  case sorted => exact List.Pairwise.nil

theorem tame_start (name : Option String) : Tame { name } := by
  refine ⟨show 1 ≤ 256 by omega, Nat.zero_le _, fun {i l} hl _ => ?_⟩
  have hmem := Array.mem_of_getElem? hl
  simp only [List.mem_toArray, List.mem_singleton] at hmem
  exact ⟨0, hmem ▸ rfl⟩

/-- The parameters of a function, of which one more is counted already. -/
def counting (ls : List Local) : Context := { parametric ls with arity := ls.length + 1 }

theorem counting_declare (ls : List Local) (l : Local) :
    (counting ls).declare [l] = parametric (ls ++ [l]) := by
  simp [counting, declare, parametric]

/-- A function that waits while one inside it is compiled: what it came from, and where it
stands. -/
def Suspended (K : Context) (A : List Context) (ps : List Jump) (rs : List Loop) (h : Nat) :
    List Context → Prop
  | [] => False
  | c :: cs => K.Kept c ∧ List.Forall₂ Grown A cs ∧ c.Drafted ps rs h

end Context

namespace Comp

open Compilation

variable {self : Recur} {K K' : Context} {A A' : List Context} {ps : List Jump}
  {rs : List Loop} {h h' : Nat}

theorem finishFunction_run (s : Compilation) : finishFunction.run s =
    let s' := (s.wrote [Op.pushNul.toByte]).wrote [Op.return.toByte]
    (s'.context.proto,
      { s' with builds := s'.builds.push (.leave s'.context.proto s'.diagnostics.isEmpty) }) := rfl

/-- The code of a finished function is sound. -/
theorem finishFunction_spec (hb : Context.Base K [] h) (harity : K.arity ≤ 255)
    (hbreak : K.breakables = []) : Triple (Stands K A [] [] h) finishFunction fun p s =>
      p.Sound ∧ p = s.context.proto ∧ Stands K A [] [] 0 s := by
  intro s hP hclean
  rw [finishFunction_run] at hclean ⊢
  have hclean' : s.Clean := hclean
  have hs := hP hclean'
  have hstands : Stands K A [] [] 0 ((s.wrote [Op.pushNul.toByte]).wrote [Op.return.toByte]) :=
    (emitReturn_spec hb s (fun _ => hs) hclean').2 0 (by omega)
  have houtline := hs.kept.outline_eq
  have hexits : s.context.exits = [] := by
    have := congrArg Context.Outline.breakables houtline
    simp only [Context.outline, hbreak, List.map_nil, List.map_eq_nil_iff] at this
    simp [Context.exits, this]
  have harity : s.context.arity ≤ 255 := by
    have : s.context.arity = K.arity := congrArg Context.Outline.arity houtline
    omega
  exact ⟨hclean', hs.drafted.sound _ hb.pos hexits (hs.not_flagged hb (Nat.le_refl h)) harity, rfl,
    { hstands with }⟩

theorem endFunction_spec (hb : Context.Base K' [] h') (harity : K'.arity ≤ 255)
    (hbreak : K'.breakables = []) :
    Triple (fun s => Context.Suspended K A ps rs h A' ∧ Stands K' A' [] [] h' s) endFunction
      fun r s => (r.1.Sound ∧ r.1.Sane ∧ r.1.upvalueCount = r.2.size) ∧
      (∀ k ∈ r.2, s.context.Offers k) ∧
        Stands K A ps rs h s := by
  refine (finishFunction_spec hb harity hbreak).frame.bind fun p => Triple.get.bind fun a => ?_
  refine Triple.bind (Q := fun _ s => (p.Sound ∧ p.Sane ∧ p.upvalueCount = a.context.captures.size) ∧
      (∀ k ∈ a.context.captures, s.context.Offers k) ∧ Stands K A ps rs h s)
    (Triple.modify fun s hc => ⟨?_, ?_⟩) fun _ => Triple.pure fun s hs => hs
  · cases harround : s.around <;> rw [harround] at hc <;> exact hc
  rintro ⟨rfl, hsuspended, hsound, rfl, hstands⟩
  cases A' with
  | nil => exact hsuspended.elim
  | cons c cs =>
    obtain ⟨hkept, hgrown, hdrafted⟩ := hsuspended
    obtain ⟨hcaptures, hchain⟩ : a.context.captures.size ≤ maxUpvalues ∧ Chain a.around :=
      ⟨hstands.chain.1.captures_le, hstands.chain.2.2⟩
    have hlinked := hstands.chain.2.1
    have haround := hstands.around
    cases harround : a.around with
    | nil =>
      rw [harround] at haround
      cases haround
    | cons c' cs' =>
      rw [harround] at haround hlinked hchain
      obtain ⟨hgrown', hrest⟩ := List.forall₂_cons.1 haround
      have hsane : a.context.proto.Sane := by
        have : a.context.captures.size ≤ 256 := hcaptures
        have hcount := a.context.proto_upvalueCount
        exact ⟨by omega, by omega⟩
      refine ⟨⟨hsound, hsane, a.context.proto_upvalueCount⟩, hlinked, ?_⟩
      constructor
      case calm => exact hstands.calm
      case kept => exact hkept.trans hgrown'.kept
      case around => exact Context.grown_trans hgrown hrest
      case chain => exact hchain
      case drafted => exact hdrafted.grown hgrown'

/-! ## Parameters -/

theorem advance_still : Still advance := fun s => congrArg Context.chunk (advance_context s)

theorem complain_still (c : Complaint) : Still (complain c) :=
  fun _ => congrArg Context.chunk (complainAt_context _ _ _)

theorem expect_still (k : Token.Kind) (m : Missing) : Still (expect k m) := by
  refine Still.bind (fun _ => rfl) fun b => ?_
  split
  · exact advance_still
  · exact fun _ => congrArg Context.chunk (complainAt_context _ _ _)

theorem accept_still (k : Token.Kind) : Still (accept k) := by
  refine Still.bind (fun _ => rfl) fun b => ?_
  split
  · exact advance_still.bind fun _ _ => rfl
  · exact fun _ => rfl

theorem addLocal_still (name : String) : Still (addLocal name) := by
  refine Still.bind (fun _ => rfl) fun s => ?_
  split
  · exact complain_still _
  · exact fun _ => rfl

theorem declareLocal_still : Still declareLocal := by
  refine Still.bind (fun _ => rfl) fun s => ?_
  split
  · dsimp only
    split
    · exact (complain_still _).bind fun _ => addLocal_still _
    · exact addLocal_still _
  · exact fun _ => rfl

theorem expect_entering {k : Token.Kind} {m : Missing} {ls : Context.Parameters} :
    Triple (Entering A ls) (expect k m) fun _ => Entering A ls :=
  expect_spec.still (R := (· = {})) (expect_still _ _)

theorem beginFunction_spec (name : String) :
    Triple (Stands K A ps rs h) (beginFunction name) fun _ s =>
      ∃ A', Context.Suspended K A ps rs h A' ∧ s.context.chunk = {} ∧ Stands {} A' [] [] 1 s := by
  refine Triple.modify fun s hc => ⟨hc, fun hs => ?_⟩
  refine ⟨s.context :: s.around, ⟨hs.kept, hs.around, hs.drafted⟩, rfl, ?_⟩
  constructor
  case calm => exact hs.calm
  case kept => exact ⟨rfl, fun _ _ hx => hx, Nat.le_refl _⟩
  case around => exact List.forall₂_same.2 fun c _ => .refl c
  case chain =>
    exact ⟨Context.tame_start _, by simp [Context.Linked], hs.chain⟩
  case drafted => exact Context.drafted_empty rfl rfl (Nat.zero_le _)

theorem declareName_still (m : Missing) (hdepth : 0 < K.depth) :
    Triple (fun s => s.context.chunk = {} ∧ Stands K A ps rs h s) (declareName m)
      fun _ s => s.context.chunk = {} ∧ ∃ name, Stands (K.announce name) A ps rs h s := by
  refine (expect_spec.still (R := (· = {})) (expect_still _ m)).bind fun _ => ?_
  refine (declareLocal_spec.still (R := (· = {})) declareLocal_still).bind fun _ =>
    Triple.get.bind fun a => ?_
  split
  · exact Triple.pure fun s hs => hs.2
  · rename_i hnot
    refine Triple.never ?_
    rintro s ⟨rfl, -, name, hs⟩
    have := hs.depth_eq
    rw [Context.announce_depth] at this
    omega

theorem defineVariable_still {i : UInt8} (hdepth : 0 < K.depth) :
    Triple (fun s => s.context.chunk = {} ∧ Stands K A ps rs h s) (defineVariable i)
      fun _ s => s.context.chunk = {} ∧ Stands K.settle A ps rs h s := by
  refine Triple.get.bind fun a => ?_
  split
  · refine Triple.modify fun s hc => ⟨hc, ?_⟩
    rintro ⟨rfl, hchunk, hs⟩
    rw [Context.settle, if_pos hdepth]
    exact ⟨hchunk, hs.context hs.kept.markReady rfl hs.chain.1.markReady hs.drafted.markReady⟩
  · refine Triple.writes (emitWith_run _ _) ?_
    rintro s ⟨rfl, -, hs⟩
    exact absurd (hs.depth_eq ▸ hdepth) ‹_›

theorem arity_spec (ls : Context.Parameters) :
    Triple (Entering A ls) (modifyContext fun c => { c with arity := c.arity + 1 })
      fun _ s => s.context.chunk = {} ∧ s.context.arity = ls.toList.length + 1 ∧
        Stands (Context.counting ls.toList) A [] [] (2 + ls.toList.length) s := by
  refine Triple.modify fun s hc => ⟨hc, ?_⟩
  rintro ⟨hchunk, hs⟩
  have houtline := hs.kept.outline_eq
  simp only [Context.outline, Context.parametric, Context.Outline.mk.injEq, List.map_nil,
    List.map_eq_nil_iff] at houtline
  obtain ⟨hdepth, hlocals, hbreakables, harity⟩ := houtline
  refine ⟨hchunk, congrArg (· + 1) harity, ?_⟩
  refine hs.context ⟨?_, by simp [Context.counting, Context.parametric], Nat.zero_le _⟩ rfl
    ⟨hs.chain.1.locals_le, hs.chain.1.captures_le, hs.chain.1.ready⟩ ?_
  · simp only [Context.outline, Context.counting, Context.parametric, Context.Outline.mk.injEq,
      List.map_nil, List.map_eq_nil_iff]
    exact ⟨hdepth, hlocals, hbreakables, congrArg (· + 1) harity⟩
  · have hle := ls.length_le
    simp only [maxParameters] at hle
    have := Context.drafted_empty (c := { s.context with arity := s.context.arity + 1 })
      hchunk hbreakables (by show s.context.arity + 1 ≤ 256; omega)
    rwa [show 2 + ls.toList.length = 1 + (s.context.arity + 1) by omega]

theorem countParameter_spec (ls : Context.Parameters) : Triple (Entering A ls) countParameter
      fun _ s => ls.toList.length + 1 ≤ maxParameters ∧ s.context.chunk = {} ∧
        Stands (Context.counting ls.toList) A [] [] (2 + ls.toList.length) s := by
  refine (arity_spec ls).bind fun _ => Triple.get.bind fun a => ?_
  split
  · exact (complainHere_spec (fun s hs => hs.2.2.2.calm) _).post fun _ _ => False.elim
  · refine Triple.pure ?_
    rintro s ⟨rfl, hchunk, harity, hs⟩
    exact ⟨by omega, hchunk, hs⟩

theorem parseParameters_spec (hself : Meets self) {ls : Context.Parameters} :
    Triple (Entering A ls) (parseParameters self) fun _ s => ∃ ls', Entering A ls' s := by
  refine (countParameter_spec ls).bind fun _ => ?_
  refine Triple.bind (Q := fun _ s => ∃ name, ls.toList.length + 1 ≤ maxParameters ∧
    s.context.chunk = {} ∧ Stands ((Context.counting ls.toList).announce name) A [] []
    (2 + ls.toList.length) s) ?_ fun i => Triple.ex fun name => ?_
  · have hdepth : 0 < (Context.counting ls.toList).depth := Nat.zero_lt_one
    refine (declareName_still _ hdepth).frame.post ?_
    rintro _ s ⟨hle, hchunk, name, hs⟩
    exact ⟨name, hle, hchunk, hs⟩
  refine Triple.bind (Q := fun _ s => ∃ ls', Entering A ls' s) ?_ fun _ => Triple.ex fun ls' => ?_
  · have hdepth : 0 < ((Context.counting ls.toList).announce name).depth := by
      rw [Context.announce_depth]
      exact Nat.zero_lt_one
    refine (defineVariable_still hdepth).frame.post ?_
    rintro _ s ⟨hle, hchunk, hs⟩
    rw [Context.settle_announce,
      if_pos (show 0 < (Context.counting ls.toList).depth from Nat.zero_lt_one),
      Context.counting_declare] at hs
    refine ⟨⟨ls.toList ++ [⟨name, some 1, false⟩], by simpa using hle, ?_⟩, hchunk, ?_⟩
    · intro l hl
      rcases List.mem_append.1 hl with hl | hl
      · exact ls.depth_eq l hl
      · rw [List.mem_singleton.1 hl]
    · have hlength : 2 + ls.toList.length =
          1 + (ls.toList ++ [(⟨name, some 1, false⟩ : Local)]).length := by
        simp only [List.length_append, List.length_singleton]
        omega
      rw [hlength] at hs
      exact hs
  · refine (accept_spec.still (R := (· = {})) (accept_still _)).bind fun more => ?_
    split
    · exact hself.parameters
    · exact Triple.pure fun s hs => ⟨ls', hs⟩

/-! ## Functions -/

theorem emitCaptures_run (ks : List Capture) (s : Compilation) :
    (emitCaptures ks).run s = ((), s.wrote (ks.flatMap Capture.bytes)) := by
  induction ks generalizing s with
  | nil => rfl
  | cons k ks ih =>
    show (emitCaptures ks).run (s.wrote k.bytes) = _
    rw [ih, List.flatMap_cons]
    simp only [Compilation.wrote, Context.wrote, Chunk.writes_append]

theorem emitClosure_run (i : UInt8) (ks : List Capture) (s : Compilation) :
    (do emitWith .closure i; emitCaptures ks : Comp Unit).run s =
      ((), s.wrote (Op.closure.toByte :: i :: ks.flatMap Capture.bytes)) := by
  show (emitCaptures ks).run (s.wrote [Op.closure.toByte, i]) = _
  rw [emitCaptures_run]
  simp only [Compilation.wrote, Context.wrote, Chunk.writes_append]
  rfl

theorem closure_spec {p : Proto} {captures : Array Capture} (hpos : 1 ≤ h)
    (hlocals : K.locals.size ≤ h + 1) (hloops : ∀ r ∈ rs, r.height ≤ h) :
    Triple (fun s => (p.Sound ∧ p.Sane ∧ p.upvalueCount = captures.size) ∧
      (∀ k ∈ captures, s.context.Offers k) ∧
        Stands K A ps rs h s)
      (do let index ← poolIndex (.function p); emitWith .closure index; emitCaptures captures.toList)
      fun _ => Stands K A ps rs (h + 1) := by
  refine Triple.bind (Q := fun i s => p.upvalueCount = captures.size ∧
      (∀ k ∈ captures, s.context.Offers k) ∧ Stands K A ps rs h s ∧
      s.context.chunk.constants[i.toNat]? = some (.function p)) ?_ fun i => ?_
  · refine (poolIndex_spec _ (R := fun c => ∀ k ∈ captures, c.Offers k) fun hr => hr).frame.pre ?_
    rintro s ⟨⟨hsound, hsane, hcount⟩, hoffers, hs⟩
    refine ⟨hcount, ?_, hoffers, hs⟩
    rintro q ⟨⟩
    exact ⟨hsound, hsane⟩
  · refine Triple.writes (emitClosure_run i captures.toList) ?_
    rintro s ⟨hcount, hoffers, hs, hp⟩
    refine hs.wrote (hs.drafted.closure _ hp (by simpa using hcount) hpos ?_ hloops ?_)
    · exact hs.locals_size ▸ hlocals
    · simpa using hoffers

/-- From the beginning of a function to its end. The functions around wait. -/
theorem parseInside_spec (hself : Meets self) {A' : List Context} :
    Triple (fun s => Context.Suspended K A ps rs h A' ∧ s.context.chunk = {} ∧ Stands {} A' [] [] 1 s)
      (parseInside self) fun _ s =>
        ∃ (ls : Context.Parameters) (ls' : (Context.parametric ls.toList).Fresh),
        Context.Suspended K A ps rs h A' ∧
          Stands ((Context.parametric ls.toList).declare ls'.toList) A' [] []
          (1 + ls.toList.length + ls'.toList.length) s := by
  refine Triple.bind (Q := fun _ s => Context.Suspended K A ps rs h A' ∧ Entering A' .none s)
    ((beginScope_spec.still (R := (· = {})) fun _ => rfl).frame.post ?_) fun _ => ?_
  · rintro _ s ⟨hsuspended, hchunk, hs⟩
    exact ⟨hsuspended, hchunk, hs.rebase
      ⟨by simp [Context.outline, Context.deepen, Context.parametric, Context.Parameters.none],
        by simp [Context.parametric], Nat.le_refl _⟩⟩
  refine expect_entering.frame.bind fun _ => ?_
  refine Triple.bind (Q := fun _ s => ∃ ls, Context.Suspended K A ps rs h A' ∧ Entering A' ls s) ?_
    fun _ =>
    Triple.ex fun ls => expect_entering.frame.bind fun _ => expect_entering.frame.bind fun _ => ?_
  · refine check_keeps.bind fun closed => ?_
    split
    · refine hself.parameters.frame.post ?_
      rintro _ s ⟨hsuspended, ls, hs⟩
      exact ⟨ls, hsuspended, hs⟩
    · exact Triple.pure fun s hs => ⟨_, hs⟩
  · refine (hself.block (Context.parametric_settled ls)).frame.conseq (fun s hs => ⟨hs.1, hs.2.2⟩) ?_
    rintro _ s ⟨hsuspended, ls', hs⟩
    exact ⟨ls, ls', hsuspended, hs⟩

/-- A function leaves one value, as an expression does. It may name the variable that it will be the
value of. -/
theorem parseFunction_spec (hself : Meets self) (hpos : 1 ≤ h)
    (hlocals : K.locals.size ≤ h + 1) (hloops : ∀ r ∈ rs, r.height ≤ h) :
    Triple (Stands K A ps rs h) (parseFunction self) fun _ => Stands K A ps rs (h + 1) := by
  refine previous_spec.bind fun t =>
    Triple.bind (x := inFunction t.text (parseInside self)) ?_ fun f =>
    closure_spec hpos hlocals hloops
  refine ((beginFunction_spec t.text).pre fun s hs => hs.2).bind fun _ => Triple.ex fun A' => ?_
  refine (parseInside_spec hself).bind fun _ => Triple.ex fun ls => Triple.ex fun ls' => ?_
  exact endFunction_spec ((Context.parametric_settled ls).declare ls').base ls.length_le rfl

end Comp

end Parlance
