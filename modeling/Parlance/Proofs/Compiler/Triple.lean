/-
  Moves of the compiler over sources without a fault.

  * `Triple.bind`, `Triple.conseq`, `Triple.frame` …: the rules. As a complaint is never taken back,
    what comes after one needs no care: `Triple.absurd`.
-/
import Parlance.Compiler

namespace Parlance

namespace Compilation

/-- Nothing was complained about. -/
def Clean (s : Compilation) : Prop := s.diagnostics = #[]

end Compilation

namespace Comp

variable {φ : Prop} {α β : Type} {P P' R : Compilation → Prop} {x : Comp α} {f : α → Comp β}
  {Q Q' : α → Compilation → Prop} {S : β → Compilation → Prop}

/-- Where `x` ends without a complaint, it began without one, and led from `P` to `Q`. -/
def Triple (P : Compilation → Prop) (x : Comp α) (Q : α → Compilation → Prop) : Prop :=
  ∀ s, (s.Clean → P s) → (x.run s).2.Clean → s.Clean ∧ Q (x.run s).1 (x.run s).2

/-- A move that writes no code and adds no constants. -/
def Still (x : Comp α) : Prop := ∀ s, (x.run s).2.context.chunk = s.context.chunk

theorem Still.bind (hx : Still x) (hf : ∀ a, Still (f a)) : Still (x >>= f) :=
  fun s => (hf (x.run s).1 (x.run s).2).trans (hx s)

namespace Triple

theorem pure {a : α} (h : ∀ s, P s → Q a s) : Triple P (pure a : Comp α) Q :=
  fun s hP hs => ⟨hs, h s (hP hs)⟩

theorem bind (hx : Triple P x Q) (hf : ∀ a, Triple (Q a) (f a) S) : Triple P (x >>= f) S := by
  intro s hP hs
  have hmid := hf (x.run s).1 (x.run s).2 (fun hc => (hx s hP hc).2) hs
  exact ⟨(hx s hP hmid.1).1, hmid.2⟩

theorem conseq (hx : Triple P x Q) (hP : ∀ s, P' s → P s) (hQ : ∀ a s, Q a s → Q' a s) :
    Triple P' x Q' := fun s h hs =>
  have := hx s (fun hc => hP s (h hc)) hs
  ⟨this.1, hQ _ _ this.2⟩

theorem pre (hx : Triple P x Q) (hP : ∀ s, P' s → P s) : Triple P' x Q := hx.conseq hP fun _ _ h => h

theorem post (hx : Triple P x Q) (hQ : ∀ a s, Q a s → Q' a s) : Triple P x Q' :=
  hx.conseq (fun _ h => h) hQ

/-- What cannot happen needs no care, as a complaint is never taken back. -/
theorem absurd (hx : Triple P x Q) (hP : ∀ s, ¬ P' s) : Triple P' x Q' := by
  intro s h hs
  have hc : s.Clean := (hx s (fun hc => (hP s (h hc)).elim) hs).1
  exact (hP s (h hc)).elim

theorem ex {ι : Type} [Nonempty ι] {P : ι → Compilation → Prop} (h : ∀ i, Triple (P i) x Q) :
    Triple (fun s => ∃ i, P i s) x Q := by
  intro s hP hs
  by_cases hc : s.Clean
  · obtain ⟨i, hi⟩ := hP hc
    exact h i s (fun _ => hi) hs
  · obtain ⟨i⟩ := ‹Nonempty ι›
    exact h i s (fun hc' => (hc hc').elim) hs

theorem frame (hx : Triple P x Q) : Triple (fun s => φ ∧ P s) x fun a s => φ ∧ Q a s :=
  fun s h hs =>
    have := hx s (fun hc => (h hc).2) hs
    ⟨this.1, (h this.1).1, this.2⟩

theorem still {R : Chunk Constant → Prop} (hstill : Still x) (hx : Triple P x Q) :
    Triple (fun s => R s.context.chunk ∧ P s) x fun a s => R s.context.chunk ∧ Q a s :=
  fun s h hs =>
    have := hx s (fun hc => (h hc).2) hs
    ⟨this.1, (hstill s).symm ▸ (h this.1).1, this.2⟩

theorem get : Triple P (get : Comp Compilation) fun a s => a = s ∧ P s :=
  fun _ hP hs => ⟨hs, rfl, hP hs⟩

theorem modify {g : Compilation → Compilation} {Q : PUnit → Compilation → Prop}
    (h : ∀ s, (g s).Clean → s.Clean ∧ (P s → Q ⟨⟩ (g s))) : Triple P (modify g : Comp PUnit) Q :=
  fun s hP hs => ⟨(h s hs).1, (h s hs).2 (hP (h s hs).1)⟩

end Triple

/-- The same from one state only. -/
def At (a : Compilation) (φ : Prop) (x : Comp α) (Q : α → Compilation → Prop) : Prop :=
  (a.Clean → φ) → (x.run a).2.Clean → a.Clean ∧ Q (x.run a).1 (x.run a).2

theorem Triple.get_then {g : Compilation → Comp β} (h : ∀ a, At a (P a) (g a) S) :
    Triple P (MonadState.get >>= g) S := fun a => h a

theorem At.of_triple {a : Compilation} (hx : Triple (fun s => s = a ∧ φ) x Q) : At a φ x Q :=
  fun hφ hs => hx a (fun hc => ⟨rfl, hφ hc⟩) hs

theorem At.set_then {a a' : Compilation} {g : PUnit → Comp β} (hclean : a'.Clean → a.Clean)
    (h : At a' φ (g ⟨⟩) S) : At a φ (set a' >>= g) S := fun hφ hs =>
  have := h (fun hc => hφ (hclean hc)) hs
  ⟨hclean this.1, this.2⟩

end Comp

/-! ## Tokens -/

namespace Compilation

variable {s : Compilation}

theorem complainAt_clean {t : Token} {c : Complaint} (h : (s.complainAt t c).Clean) :
    s.Clean ∧ s.panicking = true := by
  unfold complainAt at h
  split at h
  · exact ⟨h, ‹_›⟩
  · simp [Clean] at h

theorem fetch_eq (ts : List Token) (h : (s.fetch ts).Clean) :
    s.Clean ∧ (s.panicking = false → ∃ t rest, s.fetch ts =
      { s with rest := rest, current := t }) := by
  induction ts generalizing s with
  | nil => exact ⟨h, fun _ => ⟨_, _, rfl⟩⟩
  | cons t ts ih =>
    rw [fetch] at h ⊢
    split at h
    · rename_i hk
      rw [if_pos hk]
      obtain ⟨hc, hp⟩ := complainAt_clean (ih h).1
      exact ⟨hc, fun hcalm => by simp [hp] at hcalm⟩
    · rename_i hk
      rw [if_neg hk]
      exact ⟨h, fun _ => ⟨t, ts, rfl⟩⟩

/-- Without a complaint, passing over a token changes nothing else. -/
theorem advance_eq (h : s.advance.Clean) : s.Clean ∧ (s.panicking = false →
      ∃ t rest, s.advance = { s with previous := s.current, rest := rest, current := t }) := by
  unfold advance at h ⊢
  simp only at h ⊢
  split at h
  · rename_i hk
    rw [if_pos hk]
    exact ⟨h, fun _ => ⟨s.current, s.rest, rfl⟩⟩
  · rename_i hk
    rw [if_neg hk]
    exact fetch_eq _ h

/-- The functions under way, and the steps that lay them out. -/
def code (s : Compilation) : Context × List Context × Array Build := (s.context, s.around, s.builds)

theorem code_complainAt (s : Compilation) (t : Token) (c : Complaint) :
    (s.complainAt t c).code = s.code := by
  unfold complainAt
  split <;> rfl

theorem code_fetch (s : Compilation) (ts : List Token) : (s.fetch ts).code = s.code := by
  induction ts generalizing s with
  | nil => rfl
  | cons t ts ih =>
    rw [fetch]
    split
    · rw [ih, code_complainAt]
    · rfl

theorem code_advance (s : Compilation) : s.advance.code = s.code := by
  unfold advance
  dsimp only
  split
  · rfl
  · exact code_fetch _ _

theorem complainAt_context (s : Compilation) (t : Token) (c : Complaint) :
    (s.complainAt t c).context = s.context :=
  congrArg (·.1) (s.code_complainAt t c)

theorem advance_context (s : Compilation) : s.advance.context = s.context :=
  congrArg (·.1) s.code_advance

end Compilation

end Parlance
