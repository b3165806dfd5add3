/-
  Where a compilation without a fault stands.
-/
import Mathlib.Data.List.Forall2
import Parlance.Proofs.Compiler.Draft
import Parlance.Proofs.Compiler.Triple

namespace Parlance

variable {P : Compilation → Prop} {k : Token.Kind}

/-! ## One function -/

namespace Context

variable {c c' d : Context}

/-- The variable in slot `i` is known to be captured. -/
def Flagged (c : Context) (i : Nat) : Prop := ∃ l, c.locals[i]? = some l ∧ l.isCaptured = true

/-- What statements leave as it is. -/
structure Outline where
  depth : Nat
  /-- The scope of each local that is ready. -/
  locals : List (Option Nat)
  /-- Whether each open loop or choice is a loop, the locals before it, and where it goes on. -/
  breakables : List (Bool × Nat × Nat)
  arity : Nat

def outline (c : Context) : Outline where
  depth := c.depth
  locals := c.locals.toList.map (·.depth)
  breakables := c.breakables.map fun b => (b.isLoop, b.localCount, b.continueTarget)
  arity := c.arity

/-- `c` came from `d` by statements. -/
structure Kept (d c : Context) : Prop where
  outline_eq : c.outline = d.outline
  constants : ∀ (i : Nat) x, d.chunk.constants[i]? = some x → c.chunk.constants[i]? = some x
  captures : d.captures.size ≤ c.captures.size

theorem Kept.refl (c : Context) : c.Kept c := ⟨rfl, fun _ _ h => h, Nat.le_refl _⟩

theorem Kept.trans (h : c.Kept c') (h' : c'.Kept d) : c.Kept d :=
  ⟨h'.outline_eq.trans h.outline_eq, fun i x hx => h'.constants i x (h.constants i x hx),
    Nat.le_trans h.captures h'.captures⟩

theorem Kept.locals_size (h : d.Kept c) : c.locals.size = d.locals.size := by
  have := congrArg (fun o => o.locals.length) h.outline_eq
  simpa [outline] using this

/-- `c'` came from `c` while a function inside it was compiled. -/
structure Grown (c c' : Context) : Prop where
  name_eq : c'.name = c.name
  arity_eq : c'.arity = c.arity
  chunk_eq : c'.chunk = c.chunk
  depth_eq : c'.depth = c.depth
  breakables_eq : c'.breakables = c.breakables
  depths : c'.locals.toList.map (·.depth) = c.locals.toList.map (·.depth)
  flagged : ∀ i, c.Flagged i → c'.Flagged i
  captures : c.captures.size ≤ c'.captures.size

theorem Grown.refl (c : Context) : c.Grown c :=
  ⟨rfl, rfl, rfl, rfl, rfl, rfl, fun _ h => h, Nat.le_refl _⟩

theorem Grown.trans (h : c.Grown c') (h' : c'.Grown d) : c.Grown d where
  name_eq := h'.name_eq.trans h.name_eq
  arity_eq := h'.arity_eq.trans h.arity_eq
  chunk_eq := h'.chunk_eq.trans h.chunk_eq
  depth_eq := h'.depth_eq.trans h.depth_eq
  breakables_eq := h'.breakables_eq.trans h.breakables_eq
  depths := h'.depths.trans h.depths
  flagged i hi := h'.flagged i (h.flagged i hi)
  captures := Nat.le_trans h.captures h'.captures

theorem Grown.kept (h : c.Grown c') : c.Kept c' where
  outline_eq := by simp [outline, h.depth_eq, h.depths, h.breakables_eq, h.arity_eq]
  constants i x hx := h.chunk_eq ▸ hx
  captures := h.captures

/-- The jumps that leave an open loop or choice, as pending jumps. -/
def exits (c : Context) : List Jump :=
  c.breakables.flatMap fun b => b.breakJumps.toList.map (⟨·, b.localCount, b.localCount⟩)

/-- The code of the function, with the other jumps that are not aimed yet and the open loops. -/
def sketch (c : Context) (ps : List Jump) (rs : List Loop) (h : Nat) : Sketch :=
  ⟨c.chunk, c.captures.size, c.arity, c.Flagged, ps ++ c.exits, rs, h⟩

/-- The code of the function has a chart. -/
def Drafted (c : Context) (ps : List Jump) (rs : List Loop) (h : Nat) : Prop :=
  ∃ t, (c.sketch ps rs h).Draft t

variable {ps ps' : List Jump} {rs : List Loop} {h : Nat}

theorem Drafted.grown (hd : c.Drafted ps rs h) (hg : c.Grown c') : c'.Drafted ps rs h := by
  obtain ⟨t, ht⟩ := hd
  have hdraft := ht.grow hg.flagged hg.captures (fun _ _ h => h) ht.pool ht.nested
  refine ⟨t, ?_⟩
  simp only [sketch, exits, hg.chunk_eq, hg.arity_eq, hg.breakables_eq] at hdraft ⊢
  exact hdraft

theorem Drafted.congr (hd : c.Drafted ps rs h) (hp : ∀ x, x ∈ ps' ↔ x ∈ ps) : c.Drafted ps' rs h := by
  obtain ⟨t, ht⟩ := hd
  exact ⟨t, ht.congr_pending fun x => by simp [sketch, hp]⟩

/-- The function keeps to its limits, and only what is ready is captured. -/
structure Tame (c : Context) : Prop where
  locals_le : c.locals.size ≤ maxLocals
  captures_le : c.captures.size ≤ maxUpvalues
  ready : ∀ {i : Nat} {l : Local}, c.locals[i]? = some l → l.isCaptured = true → ∃ d, l.depth = some d

/-- What `k` captures is there: a local known to be captured, or one of the captures. -/
def Offers (d : Context) (k : Capture) : Prop :=
  if k.isLocal then d.Flagged k.index.toNat else k.index.toNat < d.captures.size

/-- The captures of the function are there in the next one around. -/
def Linked (c : Context) : List Context → Prop
  | [] => c.captures = #[]
  | d :: _ => ∀ k ∈ c.captures, d.Offers k

end Context

/-- The functions under way, the innermost first, keep to their limits and find their captures. -/
def Chain : List Context → Prop
  | [] => True
  | c :: cs => c.Tame ∧ c.Linked cs ∧ Chain cs

/-! ## The whole compilation -/

/-- The compilation goes on without a fault. The function of now came from `K` by statements, and
those around it from `A`; besides the jumps `ps` and the loops `rs` there are `h` values on the
frame. -/
structure Compilation.Stands (K : Context) (A : List Context) (ps : List Jump)
    (rs : List Loop) (h : Nat) (s : Compilation) : Prop where
  calm : s.panicking = false
  kept : K.Kept s.context
  around : List.Forall₂ Context.Grown A s.around
  chain : Chain (s.context :: s.around)
  drafted : s.context.Drafted ps rs h

namespace Compilation.Stands

variable {K K' : Context} {A : List Context} {ps ps' : List Jump} {rs : List Loop}
  {r : Loop} {h : Nat} {s s' : Compilation}

theorem rebase (hs : Stands K' A ps rs h s) (hk : K.Kept K') : Stands K A ps rs h s :=
  { hs with kept := hk.trans hs.kept }

theorem congr (hs : Stands K A ps rs h s) (hp : ∀ x, x ∈ ps' ↔ x ∈ ps) : Stands K A ps' rs h s :=
  { hs with drafted := hs.drafted.congr hp }

theorem openLoop (hs : Stands K A ps rs h s) (hrs : ∀ r ∈ rs, r.height ≤ h) :
    Stands K A ps (⟨s.context.chunk.code.size, h, [s.context.chunk.code.size]⟩ :: rs) h s := by
  obtain ⟨t, ht⟩ := hs.drafted
  exact { hs with drafted := ⟨t, ht.openLoop hrs⟩ }

theorem addEntry (hs : Stands K A ps (r :: rs) h s) (hr : r.height = h) :
    Stands K A ps ({ r with entries := s.context.chunk.code.size :: r.entries } :: rs) h s := by
  obtain ⟨t, ht⟩ := hs.drafted
  exact { hs with drafted := ⟨t, ht.addEntry rfl hr⟩ }

theorem closeLoop (hs : Stands K A ps (r :: rs) h s) (hr : r.height ≤ h) : Stands K A ps rs h s := by
  obtain ⟨t, ht⟩ := hs.drafted
  exact { hs with drafted := ⟨_, ht.closeLoop rfl hr⟩ }

theorem of_eq (hs : Stands K A ps rs h s) (hpanic : s'.panicking = s.panicking)
    (hcontext : s'.context = s.context) (haround : s'.around = s.around) : Stands K A ps rs h s' where
  calm := hpanic.trans hs.calm
  kept := hcontext ▸ hs.kept
  around := haround ▸ hs.around
  chain := hcontext ▸ haround ▸ hs.chain
  drafted := hcontext ▸ hs.drafted

end Compilation.Stands

namespace Comp

open Compilation

variable {α : Type} {K : Context} {A : List Context} {ps : List Jump} {rs : List Loop} {h h' : Nat}

/-- What stays true of the code as it grows stays true along a move for all such code. -/
theorem Triple.along {x : Comp α} {R : Context → Prop} (hR : ∀ {c c'}, c.Kept c' → R c → R c')
    (hx : ∀ K', K.Kept K' → Triple (Stands K' A ps rs h) x fun _ => Stands K' A ps rs h') :
    Triple (fun s => Stands K A ps rs h s ∧ R s.context) x fun _ s => Stands K A ps rs h' s ∧
      R s.context := by
  intro s hP hs
  have hc : s.Clean := (hx K (.refl K) s (fun hc => (hP hc).1) hs).1
  obtain ⟨hstands, hr⟩ := hP hc
  obtain ⟨-, hpost⟩ := hx s.context hstands.kept s (fun _ => { hstands with kept := .refl _ }) hs
  exact ⟨hc, hpost.rebase hstands.kept, hR hpost.kept hr⟩

/-! ## Tokens -/

theorem complain_spec (hP : ∀ s, P s → s.panicking = false) (c : Complaint)
    {Q : Unit → Compilation → Prop} : Triple P (complain c) Q := by
  refine Triple.modify fun s hs => ?_
  obtain ⟨hc, hp⟩ := complainAt_clean hs
  exact ⟨hc, fun hs => by simp [hP s hs] at hp⟩

theorem complainHere_spec (hP : ∀ s, P s → s.panicking = false) (c : Complaint)
    {Q : Unit → Compilation → Prop} : Triple P (complainHere c) Q := by
  refine Triple.modify fun s hs => ?_
  obtain ⟨hc, hp⟩ := complainAt_clean hs
  exact ⟨hc, fun hs => by simp [hP s hs] at hp⟩

theorem Triple.pass {β : Type} {S : β → Compilation → Prop} {φ : Prop}
    [Decidable φ] {x : Comp Unit} {f : Unit → Comp β} (hx : Triple P x fun _ _ => False)
    (hf : Triple (fun s => ¬ φ ∧ P s) (f ()) S) :
    Triple P (if φ then x >>= f else f ()) S := by
  split
  · exact hx.bind fun _ => hf.absurd fun _ h => h
  · rename_i hφ
    exact hf.pre fun s hs => ⟨hφ, hs⟩

theorem Triple.complain_if {β : Type} {S : β → Compilation → Prop} {φ : Prop}
    [Decidable φ] {c : Complaint} {f : Unit → Comp β} (hP : ∀ s, P s → s.panicking = false)
    (hf : Triple (fun s => ¬ φ ∧ P s) (f ()) S) :
    Triple P (if φ then complain c >>= f else f ()) S :=
  pass (complain_spec hP c) hf

theorem complainIf_spec (hP : ∀ s, P s → s.panicking = false) (b : Bool) (c : Complaint) :
    Triple P (complainIf b c) fun _ s => b = false ∧ P s := by
  cases b with
  | false => exact Triple.pure fun s hs => ⟨rfl, hs⟩
  | true => exact (complain_spec hP c).post fun _ _ => False.elim

theorem advance_seen : Triple (fun s => s.current.kind = k ∧ Stands K A ps rs h s) advance fun _ s =>
      s.previous.kind = k ∧ Stands K A ps rs h s := by
  refine Triple.modify fun s hs => ?_
  obtain ⟨hc, hrest⟩ := advance_eq hs
  refine ⟨hc, ?_⟩
  rintro ⟨hcur, hstands⟩
  obtain ⟨t, rest, heq⟩ := hrest hstands.calm
  refine ⟨?_, hstands.of_eq (by rw [heq]) (by rw [heq]) (by rw [heq])⟩
  rw [heq]
  exact hcur

theorem advance_spec : Triple (Stands K A ps rs h) advance fun _ => Stands K A ps rs h := by
  intro s hP hs
  have hc : s.Clean := (advance_eq hs).1
  exact ⟨hc, (advance_seen s (fun hc => ⟨rfl, hP hc⟩) hs).2.2⟩

theorem check_spec (k : Token.Kind) :
    Triple P (check k) fun b s => (b = true → s.current.kind = k) ∧ P s :=
  Triple.get.bind fun a => fun s hP hs => by
    obtain ⟨rfl, hP⟩ := hP hs
    exact ⟨hs, fun hb => eq_of_beq hb, hP⟩

theorem check_keeps : Triple P (check k) fun _ => P :=
  (check_spec k).post fun _ _ hs => hs.2

theorem accept_spec : Triple (Stands K A ps rs h) (accept k) fun _ => Stands K A ps rs h := by
  refine check_keeps.bind fun b => ?_
  cases b with
  | false => exact Triple.pure fun s hs => hs
  | true => exact advance_spec.bind fun _ => Triple.pure fun s hs => hs

theorem expect_seen {m : Missing} : Triple (Stands K A ps rs h) (expect k m) fun _ s =>
      s.previous.kind = k ∧ Stands K A ps rs h s := by
  refine (check_spec k).bind fun b => ?_
  cases b with
  | false => exact complainHere_spec (fun _ hs => hs.2.calm) _
  | true => exact advance_seen.pre fun s hs => ⟨hs.1 rfl, hs.2⟩

theorem expect_spec {m : Missing} :
    Triple (Stands K A ps rs h) (expect k m) fun _ => Stands K A ps rs h :=
  expect_seen.post fun _ _ hs => hs.2

theorem previous_spec : Triple P previous fun t s => t = s.previous ∧ P s :=
  Triple.get.bind fun _ => Triple.pure fun _ hs => ⟨congrArg _ hs.1, hs.2⟩

theorem codeSize_spec : Triple P codeSize fun size s => size = s.context.chunk.code.size ∧ P s :=
  Triple.get.bind fun _ => Triple.pure fun _ hs => ⟨congrArg (·.context.chunk.code.size) hs.1, hs.2⟩

end Comp

end Parlance
