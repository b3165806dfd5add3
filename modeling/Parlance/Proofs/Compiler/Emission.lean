/-
  Writing code.
-/
import Parlance.Proofs.Compiler.Stands

namespace Parlance

namespace Chunk

variable {κ : Type}

/-- Adds bytes on one line. -/
def writes (c : Chunk κ) (line : Int) : List UInt8 → Chunk κ
  | [] => c
  | b :: bs => (c.write b line).writes line bs

variable (c : Chunk κ) (line : Int) (bs : List UInt8)

@[simp] theorem writes_code : (c.writes line bs).code = c.code ++ bs.toArray := by
  induction bs generalizing c with
  | nil => simp [writes]
  | cons b bs ih => simp [writes, ih, write]

@[simp] theorem writes_lines : (c.writes line bs).lines.size = c.lines.size + bs.length := by
  induction bs generalizing c with
  | nil => simp [writes]
  | cons b bs ih => simp [writes, ih, write]; omega

@[simp] theorem writes_constants : (c.writes line bs).constants = c.constants := by
  induction bs generalizing c with
  | nil => rfl
  | cons b bs ih => simp [writes, ih, write]

theorem writes_append (bs' : List UInt8) :
    (c.writes line bs).writes line bs' = c.writes line (bs ++ bs') := by
  induction bs generalizing c with
  | nil => rfl
  | cons b bs ih => simp [writes, ih]

theorem getElem?_writes {i : Nat} (h : i < c.code.size) :
    (c.writes line bs).code[i]? = c.code[i]? := by
  simp [Array.getElem?_append_left h]

theorem byte_writes (i : Nat) :
    (c.writes line bs).byte (c.code.size + i) = (bs[i]?.map UInt8.toNat).getD 0 := by
  simp [byte, Array.getElem?_append_right]

theorem short?_writes (op high low : UInt8) :
    (c.writes line [op, high, low]).short? (c.code.size + 1) =
      some (high.toNat * 256 + low.toNat) := by
  simp [short?, Nat.add_assoc]

theorem getElem?_patchShort (offset m : Nat) {i : Nat} (hi : i ≠ offset) (hi' : i ≠ offset + 1) :
    (c.patchShort offset m).2.code[i]? = c.code[i]? := by
  simp [patchShort, hi.symm, hi'.symm]

end Chunk

theorem short_bytes {m : Nat} (h : m ≤ 65535) :
    (UInt8.ofNat (m / 256)).toNat * 256 + (UInt8.ofNat m).toNat = m := by
  simp only [UInt8.toNat_ofNat']
  omega

theorem Chunk.short?_patchShort {κ : Type} (c : Chunk κ) {offset m : Nat}
    (h : offset + 2 ≤ c.code.size)
    (hm : m ≤ 65535) : (c.patchShort offset m).2.short? offset = some m := by
  have hsize : ∀ v, (c.code.setIfInBounds offset v).size = c.code.size := by simp
  simp only [patchShort, short?, Array.getElem?_setIfInBounds, hsize]
  simp [show offset < c.code.size by omega, show offset + 1 < c.code.size by omega]
  omega

theorem stackEffect_snd_le (op : Op) (operand : Nat) : (stackEffect op operand).2 ≤ 1 := by
  cases op <;> simp [stackEffect]

/-! ## One function -/

namespace Context

variable {c c' : Context} {ps ps' : List Jump} {rs : List Loop} {h h' a e : Nat} {op : Op}

/-- The operand names something that is there. -/
def Names (c : Context) (op : Op) (operand height : Nat) : Prop :=
  match op with
  | .constant => ∃ k, c.chunk.constants[operand]? = some k
  | .getGlobal | .defineGlobal | .setGlobal => ∃ s, c.chunk.constants[operand]? = some (.text s)
  | .getUpvalue | .setUpvalue => operand < c.captures.size
  | .getLocal | .setLocal => operand < height
  | _ => True

theorem Names.kept {b : Nat} (hn : c.Names op b h) (hk : c.Kept c') : c'.Names op b h := by
  cases op with
  | constant => exact hn.imp fun k hk' => hk.constants _ _ hk'
  | getGlobal | defineGlobal | setGlobal => exact hn.imp fun k hk' => hk.constants _ _ hk'
  | getUpvalue | setUpvalue => exact Nat.lt_of_lt_of_le hn hk.captures
  | getLocal | setLocal => exact hn
  | _ => exact trivial

theorem Names.mono {b : Nat} (hn : c.Names op b h) (hle : h ≤ h') : c.Names op b h' := by
  cases op with
  | getLocal | setLocal => exact Nat.lt_of_lt_of_le hn hle
  | _ => exact hn

/-- The function with more code. -/
def wrote (c : Context) (line : Int) (bs : List UInt8) : Context :=
  { c with chunk := c.chunk.writes line bs }

section Emit

-- The instruction takes `a` values away and leaves `e` behind. The variables among those that it
-- takes away are not captured, unless it closes them, and no open loop counts on them.
variable {operands : List UInt8} (line : Int) (hop : op ≠ .closure)
  (hwidth : operands.length = op.width)
    (heffect : stackEffect op ((operands[0]?.map UInt8.toNat).getD 0) = (a, e))
    (hnames : c.Names op ((operands[0]?.map UInt8.toNat).getD 0) (h + a)) (hpos : 1 ≤ h)
    (hclosed : op = .closeUpvalue ∨ ∀ i, h ≤ i → i < h + a → ¬ c.Flagged i)
    (hloops : ∀ r ∈ rs, r.height ≤ h) (hfalls : op.falls → h' = h + e)
    (hlow : h' ≤ 512 ∨ h' ≤ h + a + 1) (hkept : ∀ x ∈ ps, x ∈ ps')
    (hnew : ∀ x ∈ ps', x ∈ ps ∨ x = ⟨c.chunk.code.size + 1, h + e, h⟩ ∧
      (op = .jump ∨ op = .jumpIfFalse))
    (hjumps : isJump op → ⟨c.chunk.code.size + 1, h + e, h⟩ ∈ ps' ∨
      ∃ r ∈ rs, (∀ r' ∈ rs, r'.start ≤ r.start) ∧ r.height = h + e ∧ ∃ d ∈ r.entries,
        (c.chunk.writes line (op.toByte :: operands)).jumpTarget op c.chunk.code.size = d)
include hop hwidth heffect hnames hpos hclosed hloops hfalls hlow hkept hnew hjumps

theorem draft_emit {t : Chart} (ht : (c.sketch ps rs (h + a)).Draft t) :
    ((c.wrote line (op.toByte :: operands)).sketch ps' rs h').Draft fun i =>
      if i = c.chunk.code.size then some ((c.sketch ps rs (h + a)).wide (h + a)) else t i := by
  obtain ⟨C, hC⟩ : ∃ C, C = c.chunk.writes line (op.toByte :: operands) := ⟨_, rfl⟩
  rw [wrote, ← hC]
  rw [← hC] at hjumps
  have hbyte : C.byte (c.chunk.code.size + 1) = (operands[0]?.map UInt8.toNat).getD 0 := by
    rw [hC, Chunk.byte_writes]
    simp
  have hpops : C.pops op c.chunk.code.size = a := by
    rw [Chunk.pops, hbyte, heffect]
  have hpushes : C.pushes op c.chunk.code.size = e := by
    rw [Chunk.pushes, hbyte, heffect]
  have hlength : C.length op c.chunk.code.size = 1 + operands.length := by
    rw [hwidth]
    unfold Chunk.length
    split
    · exact absurd rfl hop
    · rfl
  have hsize : C.code.size = c.chunk.code.size + (1 + operands.length) := by
    rw [hC]
    simp
    omega
  have hafter : C.after op c.chunk.code.size ((c.sketch ps rs (h + a)).wide (h + a)) ≤
      (c.sketch ps rs (h + a)).wide (h + e) := by
    refine ⟨?_, ?_⟩
    · show h + a - _ + _ = h + e
      rw [hpops, hpushes]
      omega
    · rintro i (⟨hi, ho⟩ | ⟨hc, -⟩)
      · rw [hpops] at hi
        have : i < h + a - a := hi
        exact ⟨by omega, ho.2⟩
      · exact absurd hc hop
  have hop? : C.op? c.chunk.code.size = some op :=
    Chunk.op?_of_toByte (by simp [hC])
  have hconst : C.constants = c.chunk.constants := hC ▸ c.chunk.writes_constants line _
  have hfits : C.Fits c.captures.size op c.chunk.code.size
      ((c.sketch ps rs (h + a)).wide (h + a)) := by
    refine ⟨hop?, ?_, ?_, fun _ => Nat.le_of_eq (by rw [hlength, hsize]), fun _ hc => absurd hc hop⟩
    · rw [hpops]
      show a < h + a
      omega
    · cases op with
      | closure => exact absurd rfl hop
      | constant | getGlobal | defineGlobal | setGlobal =>
        simp only [Chunk.OperandFits, hbyte, hconst]
        exact hnames
      | getUpvalue | setUpvalue =>
        simp only [Chunk.OperandFits, hbyte]
        exact_mod_cast hnames
      | getLocal | setLocal =>
        simp only [Chunk.OperandFits, hbyte]
        exact hnames
      | _ => exact trivial
  have htidy : C.Tidy op c.chunk.code.size ((c.sketch ps rs (h + a)).wide (h + a)) := by
    refine ⟨fun hc => absurd hc hop, fun hne i hi hi' ho => ?_, fun hc => absurd hc hop⟩
    rw [hpops] at hi
    have hle : h + a ≤ i + a := hi
    exact hclosed.resolve_left hne i (by omega) hi' ho.2
  have hgoes : isJump op → (∃ x ∈ ps' ++ c.exits, x.place = c.chunk.code.size + 1) ∨ ∃ d : Nat,
      C.jumpTarget op c.chunk.code.size = d ∧ (c.sketch ps rs (h + a)).Goes t c.chunk.code.size d
        (C.after op c.chunk.code.size ((c.sketch ps rs (h + a)).wide (h + a))) := by
    intro hj
    rcases hjumps hj with hmem | ⟨r, hr, hstart, hheight, d, hd, htarget⟩
    · exact .inl ⟨_, List.mem_append_left _ hmem, rfl⟩
    · obtain ⟨hrd, u, hu, huh⟩ := ht.entries r hr d hd
      have hrs : r.start ≤ c.chunk.code.size := ht.starts r hr
      refine .inr ⟨d, htarget, ⟨u, hu, ?_, fun i hi => .inr ⟨(hafter.2 i hi).2, r, hr, hrs, hrd, ?_⟩⟩,
        fun r' hr' _ => Nat.le_trans (hstart r' hr') hrd⟩
      · exact hafter.1.trans (hheight.symm.trans huh.symm)
      · exact hheight ▸ (hafter.2 i hi).1
  have hlines : C.lines.size = C.code.size := by
    have : c.chunk.lines.size = c.chunk.code.size := ht.lines_eq
    simp [hC, this]
  have hfloor : ∀ r ∈ rs, r.height + C.pops op c.chunk.code.size ≤ h + a := by
    intro r hr
    have := hloops r hr
    omega
  have hjump : (⟨c.chunk.code.size + 1, h + e, h⟩ : Jump) = ⟨c.chunk.code.size + 1,
      h + a - C.pops op c.chunk.code.size + C.pushes op c.chunk.code.size,
      h + a - C.pops op c.chunk.code.size⟩ := by
    rw [hpops, hpushes, Nat.add_sub_cancel]
  have hlow' : h' ≤ 512 + C.code.size := by
    have : h + a ≤ 512 + c.chunk.code.size := ht.low
    omega
  refine ht.append (fun i hi => hC ▸ c.chunk.getElem?_writes line _ hi) hconst
    (hsize.trans (congrArg _ hlength.symm)) hlines hfits htidy hfloor hlow' ?_ ?_ ?_ hgoes
  · intro hf
    rw [hfalls hf]
    exact hafter
  · intro x hx
    exact (List.mem_append.1 hx).elim (fun hx => List.mem_append_left _ (hkept x hx))
      (fun hx => List.mem_append_right _ hx)
  · intro x hx
    rcases List.mem_append.1 hx with hx | hx
    · rcases hnew x hx with hx | ⟨rfl, hj⟩
      · exact .inl (List.mem_append_left _ hx)
      · exact .inr ⟨hjump, hj⟩
    · exact .inl (List.mem_append_right _ hx)

/-- One more instruction keeps to the draft of a function. -/
theorem Drafted.emit (hd : c.Drafted ps rs (h + a)) :
    (c.wrote line (op.toByte :: operands)).Drafted ps' rs h' :=
  hd.elim fun _ ht =>
    ⟨_, draft_emit line hop hwidth heffect hnames hpos hclosed hloops hfalls hlow hkept
    hnew hjumps ht⟩

end Emit

/-- No variable lies at height `h` or above, and no open loop counts on what is there. -/
structure Base (K : Context) (rs : List Loop) (h : Nat) : Prop where
  pos : 1 ≤ h
  free : ∀ {i d : Nat}, K.outline.locals[i]? = some (some d) → i < h
  loops : ∀ r ∈ rs, r.height ≤ h

theorem Base.mono {K : Context} (hb : Base K rs h) (hle : h ≤ h') : Base K rs h' :=
  ⟨Nat.le_trans hb.pos hle, fun hi => Nat.lt_of_lt_of_le (hb.free hi) hle, fun r hr =>
    Nat.le_trans (hb.loops r hr) hle⟩

theorem Base.kept {K K' : Context} (hb : Base K rs h) (hk : K.Kept K') : Base K' rs h :=
  ⟨hb.pos, fun hi => hb.free (hk.outline_eq ▸ hi), hb.loops⟩

end Context

/-! ## The whole compilation -/

namespace Compilation

/-- The compilation with more code in the function of now. -/
def wrote (s : Compilation) (bs : List UInt8) : Compilation :=
  { s with context := s.context.wrote s.previous.location.line bs }

variable {K : Context} {A : List Context} {ps ps' : List Jump} {rs : List Loop}
  {h h' : Nat} {s : Compilation}

theorem Stands.code (hs : Stands K A ps rs h s) {chunk : Chunk Constant}
    (hconst : chunk.constants = s.context.chunk.constants)
    (hd : Context.Drafted { s.context with chunk } ps' rs h') :
    Stands K A ps' rs h' { s with context := { s.context with chunk } } where
  calm := hs.calm
  kept := ⟨hs.kept.outline_eq, fun i x hx => hconst ▸ hs.kept.constants i x hx, hs.kept.captures⟩
  around := hs.around
  chain := ⟨⟨hs.chain.1.locals_le, hs.chain.1.captures_le, hs.chain.1.ready⟩, hs.chain.2⟩
  drafted := hd

theorem Stands.wrote {bs : List UInt8} (hs : Stands K A ps rs h s)
    (hd : (s.context.wrote s.previous.location.line bs).Drafted ps' rs h') :
    Stands K A ps' rs h' (s.wrote bs) :=
  hs.code (Chunk.writes_constants _ _ _) hd

theorem Stands.not_flagged (hs : Stands K A ps rs h' s) (hb : Context.Base K rs h) {i : Nat}
    (hi : h ≤ i) : ¬ s.context.Flagged i := by
  rintro ⟨l, hl, hcap⟩
  obtain ⟨d, hd⟩ := hs.chain.1.ready hl hcap
  have : K.outline.locals[i]? = some (some d) := by
    rw [← hs.kept.outline_eq]
    simp [Context.outline, hl, hd]
  exact absurd (hb.free this) (Nat.not_lt.2 hi)

end Compilation

namespace Comp

open Compilation

variable {K : Context} {A : List Context} {ps ps' : List Jump} {rs : List Loop}
  {r : Loop} {h a e : Nat}

theorem Triple.writes {α : Type} {x : Comp α} {P : Compilation → Prop} {Q : α → Compilation → Prop}
    {bs : List UInt8} {v : Compilation → α} (hx : ∀ s, x.run s = (v s, s.wrote bs))
    (h : ∀ s, P s → Q (v s) (s.wrote bs)) : Triple P x Q := by
  intro s hP hs
  rw [hx] at hs ⊢
  exact ⟨hs, h s (hP hs)⟩

theorem emit_run (op : Op) (s : Compilation) : (emit op).run s = ((), s.wrote [op.toByte]) := rfl

theorem emitWith_run (op : Op) (b : UInt8) (s : Compilation) :
    (emitWith op b).run s = ((), s.wrote [op.toByte, b]) := rfl

theorem emitJump_run (op : Op) (s : Compilation) :
    (emitJump op).run s = (s.context.chunk.code.size + 1, s.wrote [op.toByte, 255, 255]) := by
  refine Prod.ext ?_ rfl
  show (s.wrote [op.toByte, 255, 255]).context.chunk.code.size - 2 = s.context.chunk.code.size + 1
  simp [Compilation.wrote, Context.wrote]

theorem emit_spec (op : Op) (he : stackEffect op 0 = (a, e)) (hw : op.width = 0)
    (hf : op.falls = true) (hb : Context.Base K rs h) :
    Triple (Stands K A ps rs (h + a)) (emit op) fun _ => Stands K A ps rs (h + e) := by
  have hplain : op ≠ .closure ∧ isJump op = false := by
    cases op <;> first | exact ⟨by decide, rfl⟩ | cases hw
  have heffect : e ≤ 1 := by simpa [he] using stackEffect_snd_le op 0
  refine Triple.writes (emit_run op) fun s hs => hs.wrote ?_
  refine hs.drafted.emit _ hplain.1 hw.symm he ?_ hb.pos
    (.inr fun i hi _ => hs.not_flagged hb hi) hb.loops (fun _ => rfl) (.inr (by omega))
    (fun _ hx => hx) (fun _ hx => .inl hx) (by simp [hplain.2])
  cases op <;> first | exact trivial | cases hw

theorem emitWith_spec (op : Op) {b : UInt8} (he : stackEffect op b.toNat = (a, e)) (hw : op.width = 1)
    (hc : op ≠ .closure) (hb : Context.Base K rs h) :
    Triple (fun s => Stands K A ps rs (h + a) s ∧ s.context.Names op b.toNat (h + a))
      (emitWith op b) fun _ => Stands K A ps rs (h + e) := by
  have hplain : isJump op = false := by cases op <;> first | rfl | cases hw
  have heffect : e ≤ 1 := by simpa [he] using stackEffect_snd_le op b.toNat
  refine Triple.writes (emitWith_run op b) ?_
  rintro s ⟨hs, hn⟩
  refine hs.wrote ?_
  exact hs.drafted.emit _ hc hw.symm he hn hb.pos
    (.inr fun i hi _ => hs.not_flagged hb hi) hb.loops (fun _ => rfl) (.inr (by omega))
    (fun _ hx => hx) (fun _ hx => .inl hx) (by simp [hplain])

/-- What follows a return is not reached from it, so any height will do there. -/
theorem emit_return_spec (hb : Context.Base K rs h) : Triple (Stands K A ps rs (h + 1)) (emit .return)
      fun _ s => ∀ h' ≤ 512, Stands K A ps rs h' s := by
  refine Triple.writes (emit_run _) fun s hs h' hh' => hs.wrote ?_
  exact hs.drafted.emit _ (by decide) rfl rfl trivial hb.pos
    (.inr fun i hi _ => hs.not_flagged hb hi) hb.loops (fun hf => by cases hf) (.inl hh')
    (fun _ hx => hx) (fun _ hx => .inl hx) (fun hj => by cases hj)

theorem emitReturn_spec (hb : Context.Base K rs h) :
    Triple (Stands K A ps rs h) emitReturn fun _ s => ∀ h' ≤ 512, Stands K A ps rs h' s :=
  (emit_spec .pushNul rfl rfl rfl hb).bind fun _ => emit_return_spec hb

/-- The jump leaves the height as it is; what follows is not reached from it. -/
theorem emitJump_spec (hpos : 1 ≤ h) (hloops : ∀ r ∈ rs, r.height ≤ h) :
    Triple (Stands K A ps rs h) (emitJump .jump)
      fun p s => ∀ h', h' ≤ 512 ∨ h' ≤ h + 1 → Stands K A (⟨p, h, h⟩ :: ps) rs h' s := by
  refine Triple.writes (emitJump_run _) fun s hs h' hh' => hs.wrote ?_
  exact hs.drafted.emit (a := 0) _ (by decide) rfl rfl trivial hpos
    (.inr fun i hi hi' => by omega) hloops
    (fun hf => by cases hf) hh' (fun _ hx => List.mem_cons_of_mem _ hx)
    (fun x hx => (List.mem_cons.1 hx).elim (fun hx => .inr ⟨hx, .inl rfl⟩) .inl)
    (fun _ => .inl List.mem_cons_self)

theorem emitJump_if_spec (hb : Context.Base K rs h) :
    Triple (Stands K A ps rs (h + 1)) (emitJump .jumpIfFalse)
      fun p => Stands K A (⟨p, h + 1, h⟩ :: ps) rs (h + 1) := by
  refine Triple.writes (emitJump_run _) fun s hs => hs.wrote ?_
  exact hs.drafted.emit _ (by decide) rfl rfl trivial hb.pos
    (.inr fun i hi _ => hs.not_flagged hb hi) hb.loops (fun _ => rfl) (.inr (by omega))
    (fun _ hx => List.mem_cons_of_mem _ hx)
    (fun x hx => (List.mem_cons.1 hx).elim (fun hx => .inr ⟨hx, .inr rfl⟩) .inl)
    (fun _ => .inl List.mem_cons_self)

/-- The jump goes back to one of the places from where the innermost loop goes on. -/
theorem emitLoop_spec {target : Nat} (hpos : 1 ≤ h) (hr : r.height = h) (ht : target ∈ r.entries) :
    Triple (Stands K A ps (r :: rs) h) (emitLoop target) fun _ s =>
      ∀ h' ≤ 512, Stands K A ps (r :: rs) h' s := by
  refine Triple.bind (Q := fun _ s' => ∃ s, s' = s.wrote [Op.loop.toByte] ∧
    Stands K A ps (r :: rs) h s) (Triple.writes (emit_run _) fun s hs => ⟨s, rfl, hs⟩) fun _ => ?_
  refine codeSize_spec.bind fun size => Triple.complain_if ?_ ?_
  · rintro _ ⟨-, s, rfl, hs⟩
    exact hs.calm
  intro s' hP hs'
  obtain ⟨hle, rfl, s, rfl, hs⟩ := hP hs'
  have hsize : (s.wrote [Op.loop.toByte]).context.chunk.code.size = s.context.chunk.code.size + 1 := by
    simp [Compilation.wrote, Context.wrote]
  rw [hsize] at hle ⊢
  obtain ⟨t, hd⟩ := hs.drafted
  obtain ⟨-, u, hu, -⟩ := hd.entries r List.mem_cons_self target ht
  have hback : target ≤ s.context.chunk.code.size := hd.look_le_size hu
  have hsorted := List.pairwise_cons.1 hd.sorted
  refine ⟨hs', fun h' hh' => ?_⟩
  show Stands K A ps (r :: rs) h' (s.wrote [Op.loop.toByte, _, _])
  refine hs.wrote ?_
  refine hs.drafted.emit (a := 0) _ (by decide) rfl rfl trivial hpos (.inr fun i hi hi' => by omega) ?_
    (fun hf => by cases hf) (.inl hh') (fun _ hx => hx) (fun _ hx => .inl hx)
    (fun _ => .inr ⟨r, List.mem_cons_self, ?_, hr, target, ht, ?_⟩)
  · intro r' hr'
    rcases List.mem_cons.1 hr' with rfl | hr'
    · exact Nat.le_of_eq hr
    · exact hr ▸ (hsorted.1 r' hr').2
  · intro r' hr'
    rcases List.mem_cons.1 hr' with rfl | hr'
    · exact Nat.le_refl _
    · exact (hsorted.1 r' hr').1
  · simp only [Chunk.jumpTarget, Chunk.short?_writes, short_bytes (Nat.not_lt.1 hle), Option.getD_some]
    omega

theorem patchJump_spec {x : Jump} (hx : x ∈ ps) (hh : x.height = h) (hkept : ∀ y ∈ ps, y = x ∨ y ∈ ps')
    (hsub : ∀ y ∈ ps', y ∈ ps) :
    Triple (Stands K A ps rs h) (patchJump x.place) fun _ => Stands K A ps' rs h := by
  refine codeSize_spec.bind fun size => ?_
  dsimp only
  split
  · exact complain_spec (fun s hs => hs.2.calm) _
  rename_i hle
  refine Triple.modify fun s hs => ⟨hs, ?_⟩
  rintro ⟨rfl, hstands⟩
  obtain ⟨t, ht⟩ := hstands.drafted
  obtain ⟨-, o, w, op, ho, hw, hop, hj, -⟩ := ht.waits x (List.mem_append_left _ hx)
  have hin : o + 3 ≤ s.context.chunk.code.size := by
    have := ht.inside hw hop
    rcases hj with rfl | rfl <;> exact this
  refine hstands.code rfl ⟨t, ht.patch (List.mem_append_left _ hx) hh ?_ ?_ ?_ ?_ ?_⟩
  · simp [Sketch.size, Context.sketch]
  · intro i hi hi'
    exact Chunk.getElem?_patchShort _ _ _ hi hi'
  · exact Chunk.short?_patchShort _ (by omega) (Nat.not_lt.1 hle)
  · intro y hy
    rcases List.mem_append.1 hy with hy | hy
    · exact (hkept y hy).imp id fun hy => List.mem_append_left _ hy
    · exact .inr (List.mem_append_right _ hy)
  · intro y hy
    exact (List.mem_append.1 hy).elim (fun hy => List.mem_append_left _ (hsub y hy)) fun hy =>
      List.mem_append_right _ hy

theorem patchJump_head {p b : Nat} :
    Triple (Stands K A (⟨p, h, b⟩ :: ps) rs h) (patchJump p) fun _ => Stands K A ps rs h :=
  patchJump_spec (x := ⟨p, h, b⟩) List.mem_cons_self rfl (fun _ hy => List.mem_cons.1 hy)
    fun _ hy => List.mem_cons_of_mem _ hy

theorem patchJump_second {p b : Nat} {x : Jump} :
    Triple (Stands K A (x :: ⟨p, h, b⟩ :: ps) rs h) (patchJump p)
      fun _ => Stands K A (x :: ps) rs h :=
  (patchJump_head (b := b)).pre fun _ hs => hs.congr fun y => by
    simp only [List.mem_cons, or_left_comm]

theorem patchAll_spec (jumps : List Nat) :
    Triple (Stands K A (jumps.map (⟨·, h, h⟩) ++ ps) rs h) (patchAll jumps)
      fun _ => Stands K A ps rs h := by
  induction jumps with
  | nil => exact Triple.pure fun s hs => hs
  | cons p jumps ih =>
    exact patchJump_head.bind fun _ => ih

end Comp

end Parlance
