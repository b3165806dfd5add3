/-
  A text and a longer one, compiled side by side.

  The longer text has the tokens of the shorter one first. Where it compiles, the compilation `S` of
  the shorter text and that of the longer one, `F`, stand to each other in one of three ways.

  * `Level S F`: both have read the same tokens.
  * `Behind ps S F`: `S` has come to the end of its text and goes on without a complaint, while `F`
    reads more. After the end of `ps` the functions under way in `F` are those in `S`, with more
    code.
  * `Cut S`: `S` has complained that its text ends too early.

  `Comp.Paces`, `Comp.Tracks`, `Comp.Ends`: what a move does from the first state; `Comp.Trails`,
  `Comp.Dies`: from the second.
-/
import Parlance.Proofs.Compiler.Growth

namespace Parlance

variable {s : Compilation} {j? : Option Nat}

/-- How a text may end that goes on in a longer one: behind a token, or inside of a string or
comment. -/
inductive Ending : List Token → Prop
  | whole {t : Token} (ht : t.kind = .eof) : Ending [t]
  | torn {u t : Token} (hu : u.kind = .error)
      (hcut : ∀ place location, (⟨.lexical u.text, place, location⟩ : Diagnostic).isIncomplete =
        true) : Ending [u, t]

namespace Compilation

/-- Both have read the same tokens. -/
structure Level (S F : Compilation) : Prop where
  same : F = { S with current := F.current, rest := F.rest }
  clean : S.Clean
  calm : S.panicking = false
  ahead : S.current.kind = .eof ∨
    F.current = S.current ∧ ∃ before e g, Ending e ∧ S.rest = before ++ e ∧ F.rest = before ++ g

/-- At the end of the text, and nothing to complain about. -/
structure Ended (S : Compilation) : Prop where
  eof : S.current.kind = .eof
  clean : S.Clean
  calm : S.panicking = false

/-- `S` has come to the end of its text; `F` has gone on. -/
structure Behind (ps : List Bracket) (S F : Compilation) : Prop extends S.Ended where
  le : S.context.shape.close ps ≤ F.context.shape.close ps

variable {S F : Compilation} {ps : List Bracket}

theorem Level.context (h : S.Level F) : F.context = S.context := by rw [h.same]

theorem Level.sober (h : S.Level F) : F.Sober := fun _ => by rw [h.same]; exact h.calm

theorem Level.ended (h : S.Level F) (heof : S.current.kind = .eof) : S.Ended := ⟨heof, h.clean, h.calm⟩

theorem Level.behind (h : S.Level F) (heof : S.current.kind = .eof) : S.Behind ps F :=
  ⟨h.ended heof, by rw [h.context]⟩

theorem Level.current (h : S.Level F) (hne : S.current.kind ≠ .eof) : F.current = S.current :=
  (h.ahead.resolve_left hne).1

theorem Ended.complain (h : S.Ended) {t : Token} (ht : t.kind = .eof) (c : Complaint) :
    (S.complainAt t c).Cut := by
  refine ⟨⟨c, .atEnd, t.location⟩, ?_, by simp [Diagnostic.isIncomplete]⟩
  unfold complainAt
  rw [if_neg (by rw [h.calm]; decide), ht]
  exact Array.mem_push_self

theorem Level.advance (h : S.Level F) (hne : S.current.kind ≠ .eof) (hc : F.advance.Clean) :
    S.advance.Level F.advance ∨ S.advance.Cut := by
  obtain ⟨hcurrent, before, e, g, he, hS, hF⟩ := h.ahead.resolve_left hne
  have hne' : ¬ (S.current.kind == .eof) = true := fun hk => hne (eq_of_beq hk)
  have hadvance : S.advance = { S with previous := S.current }.fetch (before ++ e) := by
    unfold Compilation.advance
    simp only [if_neg hne', hS]
  have hadvance' : F.advance = { F with previous := S.current }.fetch (before ++ g) := by
    unfold Compilation.advance
    simp only [hcurrent, if_neg hne', hF]
  have hcalm : F.panicking = false := by rw [h.same]; exact h.calm
  rw [hadvance'] at hc ⊢
  rw [hadvance]
  cases before with
  | nil =>
    obtain ⟨-, hfetch⟩ := fetch_eq g hc
    obtain ⟨t', rest, heq⟩ := hfetch hcalm
    cases he with
    | @whole t ht =>
      left
      have hkind : ¬ (t.kind == .error) = true := by rw [ht]; decide
      rw [List.nil_append, List.nil_append, heq, fetch, if_neg hkind, h.same]
      exact ⟨rfl, h.clean, h.calm, .inl ht⟩
    | @torn u t hu hcut =>
      right
      rw [List.nil_append, fetch, if_pos (beq_iff_eq.2 hu)]
      refine (keeps_fetch _ _).cut ⟨⟨.lexical u.text, .nowhere, u.location⟩, ?_, hcut _ _⟩
      unfold complainAt
      simp only [h.calm, hu]
      exact Array.mem_push_self
  | cons t before =>
    rw [List.cons_append, fetch] at hc ⊢
    rw [List.cons_append, fetch]
    by_cases hkind : (t.kind == .error) = true
    · rw [if_pos hkind] at hc
      have hclean := (keeps_fetch _ _).clean hc
      exact absurd hclean (Sober.complain (s := { F with previous := S.current }) (fun _ => hcalm) _ _)
    · left
      rw [if_neg hkind, if_neg hkind, h.same]
      exact ⟨rfl, h.clean, h.calm, .inr ⟨rfl, before, e, g, he, rfl, rfl⟩⟩

/-- The same but for the tokens ahead, which are given. -/
def Beside (i : (Token × List Token) × Token × List Token) (S F : Compilation) : Prop :=
  F = { S with current := i.2.1, rest := i.2.2 } ∧ S.current = i.1.1 ∧ S.rest = i.1.2

instance alike_beside : Alike Beside where
  context h := by rw [h.1]
  around h := by rw [h.1]
  builds h := by rw [h.1]
  text h := by rw [h.1]
  line h := by rw [h.1]
  clean h := by rw [h.1]
  write _ _ _ h := ⟨by rw [h.1], h.2⟩
  complain c h := by
    rw [h.1]
    unfold complainAt
    dsimp only
    split
    · exact ⟨rfl, h.2⟩
    · exact ⟨rfl, h.2⟩

end Compilation

namespace Comp

open Compilation (Behind Beside KeepsComplaints Spreads)

variable {α β : Type} {ps qs rs : List Bracket}

/-- From level states a move comes to level states, unless the shorter text is cut or has come to
its end as `E` says. -/
class Keeps (E : Compilation → Compilation → Prop) (ps : List Bracket) (x : Comp α) : Prop where
  run : ∀ {S F : Compilation}, S.Level F → F.context.shape.Settled ps → (x.run F).2.Clean →
    ((x.run S).1 = (x.run F).1 ∧ (x.run S).2.Level (x.run F).2) ∨ (x.run S).2.Cut ∨
    E (x.run S).2 (x.run F).2
  keeps : Obeys KeepsComplaints x := by infer_instance

/-- The shorter text does not end. -/
abbrev Paces (ps : List Bracket) (x : Comp α) : Prop := Keeps (fun _ _ => False) ps x

/-- The shorter text may end. -/
abbrev Ends (ps : List Bracket) (x : Comp α) : Prop := Keeps (fun S _ => S.Ended) ps x

/-- The shorter text may end, and its functions are behind. -/
abbrev Tracks (ps : List Bracket) (x : Comp α) : Prop := Keeps (Behind []) ps x

/-- The same, if the shorter text is not at its end. -/
class Goes (E : Compilation → Compilation → Prop) (ps : List Bracket) (x : Comp α) : Prop where
  run : ∀ {S F : Compilation}, S.Level F → S.current.kind ≠ .eof → F.context.shape.Settled ps →
    (x.run F).2.Clean →
    ((x.run S).1 = (x.run F).1 ∧ (x.run S).2.Level (x.run F).2) ∨ (x.run S).2.Cut ∨
    E (x.run S).2 (x.run F).2
  keeps : Obeys KeepsComplaints x := by infer_instance

/-- The same, if it is. -/
class Stops (E : Compilation → Compilation → Prop) (ps : List Bracket) (x : Comp α) : Prop where
  run : ∀ {S F : Compilation}, S.Level F → S.Ended → F.context.shape.Settled ps → (x.run F).2.Clean →
    (x.run S).2.Cut ∨ E (x.run S).2 (x.run F).2

/-- From where the functions of the shorter text are behind, they come to stand as `E` says. -/
class Lags (E : Compilation → Compilation → Prop) (ps : List Bracket) (x : Comp α) : Prop where
  run : ∀ {S F : Compilation}, S.Behind [] F → F.Sober → F.context.shape.Settled ps →
    (x.run F).2.Clean → (x.run S).2.Cut ∨ E (x.run S).2 (x.run F).2
  keeps : Obeys KeepsComplaints x := by infer_instance

/-- They stay behind. -/
abbrev Trails (ps : List Bracket) (x : Comp α) : Prop := Lags (Behind []) ps x

/-- At the end of its text the shorter one is cut. -/
class Dies (x : Comp α) : Prop where
  run : ∀ {S : Compilation}, S.Ended → (x.run S).2.Cut

/-- A move that makes no complaint and reads no token. -/
class Idles (x : Comp α) : Prop where
  run : ∀ {S : Compilation}, S.Ended → (x.run S).2.Ended

variable {E : Compilation → Compilation → Prop}

/-! ## Rules -/

instance (priority := low) keeps_of_paces (x : Comp α) [h : Paces ps x] : Keeps E ps x :=
  ⟨fun hlevel hs hc => (h.run hlevel hs hc).imp id (.imp id False.elim), h.keeps⟩

instance (priority := low) ends_of_tracks (x : Comp α) [h : Tracks ps x] : Ends ps x :=
  ⟨fun hlevel hs hc => (h.run hlevel hs hc).imp id (.imp id (·.toEnded)), h.keeps⟩

instance (priority := low) goes_of_keeps (x : Comp α) [h : Keeps E ps x] : Goes E ps x :=
  ⟨fun hlevel _ => h.run hlevel, h.keeps⟩

instance (priority := low) lags_of_dies (x : Comp α) [h : Dies x] [Obeys KeepsComplaints x] :
    Lags E ps x where
  run hbehind _ _ _ := .inl (h.run hbehind.toEnded)

instance (priority := low) stops_of_dies (x : Comp α) [h : Dies x] : Stops E ps x :=
  ⟨fun _ hended _ _ => .inl (h.run hended)⟩

instance (priority := low) stops_of_lags (x : Comp α) [h : Lags E ps x] : Stops E ps x :=
  ⟨fun hlevel hended => h.run (hlevel.behind hended.eof) hlevel.sober⟩

theorem keeps_of_goes (x : Comp α) [hg : Goes E ps x] [hs : Stops E ps x] : Keeps E ps x where
  run {S F} h hsettled hc := by
    by_cases heof : S.current.kind = .eof
    · exact .inr (hs.run h (h.ended heof) hsettled hc)
    · exact hg.run h heof hsettled hc
  keeps := hg.keeps

theorem level_run (x : Comp α) [hx : Kept Beside x] [hk : Obeys KeepsComplaints x]
    {S F : Compilation} (h : S.Level F) (hc : (x.run F).2.Clean) :
    (x.run S).1 = (x.run F).1 ∧ (x.run S).2.Level (x.run F).2 := by
  obtain ⟨heq, hsame, hcurrent, hrest⟩ :=
    hx.run (i := ((S.current, S.rest), F.current, F.rest)) ⟨h.same, rfl, rfl⟩
  have hcalm := (hk.run F).sober h.sober hc
  refine ⟨heq.symm, ⟨by rw [hsame], ?_, ?_, ?_⟩⟩
  · rw [hsame] at hc
    exact hc
  · rw [hsame] at hcalm
    exact hcalm
  · rw [hsame, hcurrent, hrest]
    exact h.ahead

instance (priority := low) paces_of_kept (x : Comp α) [Kept Beside x] [Obeys KeepsComplaints x] :
    Paces ps x where
  run h _ hc := .inl (level_run x h hc)

/-- A first part that does not end, and what follows. -/
theorem Keeps.step {x : Comp α} {f : α → Comp β} [hs : Shifts ps qs x] [hx : Paces ps x]
    (hf : ∀ a, Keeps E qs (f a)) : Keeps E ps (x >>= f) where
  run {S F} h hsettled hc := by
    have hmid := ((hf _).keeps.run _).clean hc
    rcases hx.run h hsettled hmid with ⟨heq, hlevel⟩ | hcut | hno
    · have hrun := (hf (x.run F).1).run hlevel (hs.run F h.sober hmid hsettled).1 hc
      rw [run_bind, run_bind, heq]
      exact hrun
    · exact .inr (.inl (((hf _).keeps.run _).cut hcut))
    · exact hno.elim
  keeps := @Abreast.step _ _ _ _ _ _ _ _ hs.keeps fun a => (hf a).keeps

instance keeps_bind (x : Comp α) (f : α → Comp β) [Shifts ps qs x] [Paces ps x]
    [hf : ∀ a, Keeps E qs (f a)] : Keeps E ps (x >>= f) := .step hf

section

variable {x : Comp Unit} {f : Unit → Comp β} [hs : Shifts ps qs x]

/-- If the shorter text ends in the first part, it is cut next. -/
theorem keeps_of_dies [hx : Ends ps x] (hd : Dies (f ())) (hf : Keeps E qs (f ())) :
    Keeps E ps (x >>= f) where
  run {S F} h hsettled hc := by
    have hmid := (hf.keeps.run _).clean hc
    rcases hx.run h hsettled hmid with ⟨-, hlevel⟩ | hcut | hended
    · exact hf.run hlevel (hs.run F h.sober hmid hsettled).1 hc
    · exact .inr (.inl ((hf.keeps.run _).cut hcut))
    · exact .inr (.inl (hd.run hended))
  keeps := @Abreast.step _ _ _ _ _ _ _ _ hs.keeps fun _ => hf.keeps

/-- If the shorter text ends in the first part, it is behind from there on. -/
theorem Keeps.trail [hx : Tracks ps x] (hf : Keeps E qs (f ())) (ht : Lags E qs (f ())) :
    Keeps E ps (x >>= f) where
  run {S F} h hsettled hc := by
    have hmid := (hf.keeps.run _).clean hc
    have hsettled' := (hs.run F h.sober hmid hsettled).1
    rcases hx.run h hsettled hmid with ⟨-, hlevel⟩ | hcut | hbehind
    · exact hf.run hlevel hsettled' hc
    · exact .inr (.inl ((hf.keeps.run _).cut hcut))
    · exact .inr (ht.run hbehind ((hs.keeps.run F).sober h.sober) hsettled' hc)
  keeps := @Abreast.step _ _ _ _ _ _ _ _ hs.keeps fun _ => hf.keeps

theorem Lags.step [hx : Trails ps x] (hf : Lags E qs (f ())) : Lags E ps (x >>= f) where
  run {S F} h hsober hsettled hc := by
    have hmid := (hf.keeps.run _).clean hc
    rcases hx.run h hsober hsettled hmid with hcut | hbehind
    · exact .inl ((hf.keeps.run _).cut hcut)
    · exact hf.run hbehind ((hs.keeps.run F).sober hsober) (hs.run F hsober hmid hsettled).1 hc
  keeps := @Abreast.step _ _ _ _ _ _ _ _ hs.keeps fun _ => hf.keeps

variable (x f)

instance keeps_trail [Tracks ps x] [hf : Keeps E qs (f ())] [ht : Lags E qs (f ())] :
    Keeps E ps (x >>= f) := .trail hf ht

instance lags_bind [Trails ps x] [hf : Lags E qs (f ())] : Lags E ps (x >>= f) := .step hf

end

theorem Dies.bind {x : Comp α} {f : α → Comp β} [hx : Dies x]
    (hkf : ∀ a, Obeys KeepsComplaints (f a)) : Dies (x >>= f) :=
  ⟨fun h => ((hkf _).run _).cut (hx.run h)⟩

instance dies_bind (x : Comp α) (f : α → Comp β) [Dies x] [hkf : ∀ a, Obeys KeepsComplaints (f a)] :
    Dies (x >>= f) := .bind hkf

/-- A first part in which the shorter text may end, one that cuts it then, and what follows. -/
theorem Keeps.cut {x : Comp Unit} {y : Comp α} {f : α → Comp β} [Shifts ps qs x] [Ends ps x]
    [Shifts qs rs y] [Paces qs y] [Dies y]
    (hf : ∀ a, Keeps E rs (f a)) : Keeps E ps (x >>= fun _ => y >>= f) :=
  keeps_of_dies (.bind fun a => (hf a).keeps) (.step hf)

instance idles_bind (x : Comp α) (f : α → Comp β) [hx : Idles x] [hf : ∀ a, Idles (f a)] :
    Idles (x >>= f) :=
  ⟨fun h => (hf _).run (hx.run h)⟩

theorem Dies.after {x : Comp α} {f : α → Comp β} [hx : Idles x] (hf : ∀ a, Dies (f a)) :
    Dies (x >>= f) :=
  ⟨fun h => (hf _).run (hx.run h)⟩

instance dies_after (x : Comp α) (f : α → Comp β) [Idles x] [hf : ∀ a, Dies (f a)] :
    Dies (x >>= f) := .after hf

instance trails_pure (a : α) : Trails ps (pure a : Comp α) where
  run h _ _ _ := .inr h

instance idles_pure (a : α) : Idles (pure a : Comp α) := ⟨id⟩

section

variable (c : Prop) [Decidable c] (x y : Comp α)

instance keeps_ite [hx : Keeps E ps x] [hy : Keeps E ps y] : Keeps E ps (if c then x else y) := by
  split
  · exact hx
  · exact hy

-- where a test is decided, only one way counts
instance dies_else [hy : Dies y] : Dies (if false = true then x else y) := hy
instance idles_else [hy : Idles y] : Idles (if false = true then x else y) := hy
instance keeps_then [hx : Keeps E ps x] : Keeps E ps (if true = true then x else y) := hx
instance goes_else [hy : Goes E ps y] : Goes E ps (if false = true then x else y) := hy

variable (f : α → Comp β)

instance keeps_then_bind [hx : Keeps E ps (x >>= f)] :
    Keeps E ps ((if true = true then x else y) >>= f) := hx

end

/-- What depends on the state depends on the functions under way, or on the token before. -/
theorem keeps_get {f : Compilation → Comp β}
    (hsame : ∀ (s : Compilation) current rest, f { s with current, rest } = f s)
    (hf : ∀ s, Keeps E ps (f s)) : Keeps E ps (get >>= f) where
  run {S F} h hs hc := by
    have heq : f F = f S := by rw [h.same]; exact hsame S _ _
    have hrun : (get >>= f).run F = (f S).run F := by rw [← heq]; rfl
    rw [hrun] at hc ⊢
    exact (hf S).run h hs hc
  keeps := .step fun s => (hf s).keeps

theorem keeps_previous {f : Token → Comp β} (hf : ∀ t, Keeps E ps (f t)) :
    Keeps E ps (previous >>= f) :=
  keeps_get (fun _ _ _ => rfl) fun s => hf s.previous

/-- Before the end of the shorter text the token of now is the same. -/
theorem goes_get {f : Compilation → Comp β} (hsame : ∀ (s : Compilation) rest, f { s with rest } = f s)
    (hf : ∀ s, Goes E ps (f s)) : Goes E ps (get >>= f) where
  run {S F} h heof hs hc := by
    have heq : f F = f S := by rw [h.same, h.current heof]; exact hsame S _
    have hrun : (get >>= f).run F = (f S).run F := by rw [← heq]; rfl
    rw [hrun] at hc ⊢
    exact (hf S).run h heof hs hc
  keeps := .step fun s => (hf s).keeps

theorem goes_of_run {x : Comp α} [Obeys KeepsComplaints x] (y : Token.Kind → Comp α)
    (hrun : ∀ s : Compilation, x.run s = (y s.current.kind).run s) (hy : ∀ k, Goes E ps (y k)) :
    Goes E ps x where
  run {S F} h heof hs hc := by
    have hF := hrun F
    rw [h.current heof] at hF
    rw [hF] at hc ⊢
    rw [hrun S]
    exact (hy _).run h heof hs hc

/-! ## Tokens -/

/-- No text ends with a token of this kind. -/
@[reducible]
def isSolid : Token.Kind → Bool
  | .eof => false
  | _ => true

theorem ne_eof_of_isSolid {k : Token.Kind} (h : isSolid k = true) : k ≠ .eof := by
  rintro rfl
  exact nomatch h

theorem check_run (k : Token.Kind) (s : Compilation) : (check k).run s = (s.current.kind == k, s) :=
  rfl

instance keeps_complainHere (c : Complaint) (f : Unit → Comp β)
    [hkf : ∀ a, Obeys KeepsComplaints (f a)] : Keeps E ps (complainHere c >>= f) where
  run h _ hc := absurd (((hkf _).run _).clean hc) (h.sober.complain _ _)

instance paces_complainHere (c : Complaint) : Paces ps (complainHere c) where
  run h _ hc := absurd hc (h.sober.complain _ _)

instance paces_previous : Paces ps previous where
  run h _ _ := .inl ⟨by rw [h.same]; rfl, h⟩

theorem Goes.advance {f : Unit → Comp β} (hf : Keeps E ps (f ())) : Goes E ps (advance >>= f) where
  run {S F} h heof hs hc := by
    rcases h.advance heof ((hf.keeps.run _).clean hc) with hlevel | hcut
    · exact hf.run hlevel (Compilation.advance_context F ▸ hs) hc
    · exact .inr (.inl ((hf.keeps.run _).cut hcut))
  keeps := .step fun _ => hf.keeps

instance goes_advance (f : Unit → Comp β) [hf : Keeps E ps (f ())] : Goes E ps (advance >>= f) :=
  .advance hf

section

variable (k : Token.Kind) [hk : IsTrue (isSolid k)]

instance dies_expect (m : Missing) : Dies (expect k m) := ⟨fun {S} h => by
  rw [expect_run, if_neg fun hkind => ne_eof_of_isSolid hk.eq (hkind.symm.trans h.eof)]
  exact h.complain h.eof _⟩

instance goes_expect (m : Missing) : Goes (fun _ _ => False) ps (expect k m) where
  run {S F} h heof _ hc := by
    rw [expect_run] at hc ⊢
    rw [expect_run, h.current heof] at *
    split at hc <;> rename_i hkind
    · rw [if_pos hkind, if_pos hkind]
      exact (h.advance heof hc).imp (fun hlevel => ⟨rfl, hlevel⟩) .inl
    · exact absurd hc (h.sober.complain _ _)

instance paces_expect (m : Missing) : Paces ps (expect k m) := keeps_of_goes _

variable (f : Bool → Comp β)

omit hk in
theorem accept_bind (s : Compilation) :
    (accept k >>= f).run s = if s.current.kind = k then (f true).run s.advance else
    (f false).run s := by
  rw [run_bind, accept_run]
  split <;> rfl

theorem accept_eof {S : Compilation} (h : S.Ended) : (accept k >>= f).run S = (f false).run S := by
  rw [accept_bind, if_neg fun hkind => ne_eof_of_isSolid hk.eq (hkind.symm.trans h.eof)]

theorem check_eof {S : Compilation} (h : S.Ended) : (check k >>= f).run S = (f false).run S := by
  rw [run_bind, check_run, beq_eq_false_iff_ne.2 fun hkind =>
    ne_eof_of_isSolid hk.eq (hkind.symm.trans h.eof)]

instance dies_accept [hf : Dies (f false)] : Dies (accept k >>= f) :=
  ⟨fun h => by rw [accept_eof k f h]; exact hf.run h⟩
instance dies_check [hf : Dies (f false)] : Dies (check k >>= f) :=
  ⟨fun h => by rw [check_eof k f h]; exact hf.run h⟩

instance stops_accept [hf : Idles (f false)] : Stops (fun S _ => S.Ended) ps (accept k >>= f) :=
  ⟨fun _ h _ _ => by rw [accept_eof k f h]; exact .inr (hf.run h)⟩

omit hk in
theorem Goes.accept (ht : Keeps E ps (f true)) (hf : Goes E ps (f false)) :
    Goes E ps (accept k >>= f) where
  run {S F} h heof hs hc := by
    rw [accept_bind] at hc ⊢
    rw [accept_bind, h.current heof] at *
    by_cases hkind : S.current.kind = k
    · simp only [if_pos hkind] at hc ⊢
      rcases h.advance heof ((ht.keeps.run _).clean hc) with hlevel | hcut
      · exact ht.run hlevel (Compilation.advance_context F ▸ hs) hc
      · exact .inr (.inl ((ht.keeps.run _).cut hcut))
    · simp only [if_neg hkind] at hc ⊢
      exact hf.run h heof hs hc
  keeps := .step (Bool.rec hf.keeps ht.keeps)

omit hk in
instance goes_accept [ht : Keeps E ps (f true)] [hf : Goes E ps (f false)] :
    Goes E ps (accept k >>= f) :=
  .accept k f ht hf

theorem Keeps.accept [Dies (f false)] (ht : Keeps E ps (f true)) (hf : Goes E ps (f false)) :
    Keeps E ps (accept k >>= f) := by
  have hgoes := Goes.accept k f ht hf
  exact keeps_of_goes _

instance keeps_accept [Keeps E ps (f true)] [Goes E ps (f false)] [Stops E ps (accept k >>= f)] :
    Keeps E ps (accept k >>= f) := keeps_of_goes _

instance keeps_check [hf : ∀ b, Keeps E ps (f b)] [hd : Dies (f false)] :
    Keeps E ps (check k >>= f) where
  run {S F} h hs hc := by
    by_cases heof : S.current.kind = .eof
    · exact .inr (.inl (Dies.run (h.ended heof)))
    · rw [run_bind, check_run] at hc ⊢
      rw [run_bind, check_run, h.current heof] at *
      exact (hf _).run h hs hc
  keeps := .step fun b => (hf b).keeps

end

theorem acceptCompound_eof {S : Compilation} (h : S.Ended) (f : Option Op → Comp β) :
    (acceptCompound >>= f).run S = (f none).run S := by
  rw [run_bind, acceptCompound_run, h.eof]
  rfl

theorem Goes.acceptCompound {f : Option Op → Comp β} (ht : ∀ op, Keeps E ps (f (some op)))
    (hf : Goes E ps (f none)) : Goes E ps (acceptCompound >>= f) where
  run {S F} h heof hs hc := by
    rw [run_bind, acceptCompound_run] at hc ⊢
    rw [run_bind, acceptCompound_run, h.current heof] at *
    split at hc <;> dsimp only
    · rcases h.advance heof (((ht _).keeps.run _).clean hc) with hlevel | hcut
      · exact (ht _).run hlevel (Compilation.advance_context F ▸ hs) hc
      · exact .inr (.inl (((ht _).keeps.run _).cut hcut))
    · exact hf.run h heof hs hc
  keeps := .step (Option.rec hf.keeps fun op => (ht op).keeps)

instance goes_acceptCompound (f : Option Op → Comp β) [ht : ∀ op, Keeps E ps (f (some op))]
    [hf : Goes E ps (f none)] : Goes E ps (acceptCompound >>= f) := .acceptCompound ht hf

/-! ## Code -/

instance idles_get : Idles (get : Comp Compilation) := ⟨id⟩
instance idles_modifyContext (f : Context → Context) : Idles (modifyContext f) :=
  ⟨fun h => ⟨h.eof, h.clean, h.calm⟩⟩
instance idles_emitByte (b : UInt8) : Idles (emitByte b) := ⟨fun h => ⟨h.eof, h.clean, h.calm⟩⟩
instance idles_codeSize : Idles codeSize := idles_bind ..
instance idles_emit (op : Op) : Idles (emit op) := idles_emitByte _
instance idles_emitWith (op : Op) (b : UInt8) : Idles (emitWith op b) := idles_bind ..
instance idles_emitJump (op : Op) : Idles (emitJump op) := idles_bind ..

instance idles_emitAll (ops : List Op) : Idles (emitAll ops) := by
  induction ops with
  | nil => exact idles_pure ()
  | cons op ops ih => exact idles_bind ..

instance idles_endScope : Idles endScope := idles_bind ..

theorem trails_of_shape {x : Comp α} [hx : Idles x] [Obeys KeepsComplaints x] (φ : Shape → Shape)
    (hφ : ∀ {a b : Shape}, a ≤ b → φ a ≤ φ b)
    (hshape : ∀ s : Compilation, (x.run s).2.context.shape = φ s.context.shape) : Trails ps x where
  run {S F} h _ _ _ := by
    refine .inr ⟨hx.run h.toEnded, ?_⟩
    show (x.run S).2.context.shape ≤ (x.run F).2.context.shape
    rw [hshape, hshape]
    exact hφ h.le

theorem emitWith_shape (op : Op) (b : UInt8) (s : Compilation) :
    ((emitWith op b).run s).2.context.shape = s.context.shape.add 2 :=
  (emitByte_shape b _).trans (congrArg (·.add 1) (emit_shape op s))

theorem emitJump_shape (op : Op) (s : Compilation) :
    ((emitJump op).run s).1 = s.context.shape.size + 1 ∧
    ((emitJump op).run s).2.context.shape = s.context.shape.add 3 := by
  let line := s.previous.location.line
  let chunk := ((s.context.chunk.write op.toByte line).write 255 line).write 255 line
  show chunk.code.size - 2 = _ ∧ Context.shape { s.context with chunk } = _
  simp [Context.shape, Chunk.write, Shape.add, chunk]

instance trails_emit (op : Op) : Trails ps (emit op) :=
  trails_of_shape (·.add 1) (Shape.add_mono · 1) (emit_shape op)
instance trails_emitWith (op : Op) (b : UInt8) : Trails ps (emitWith op b) :=
  trails_of_shape (·.add 2) (Shape.add_mono · 2) (emitWith_shape op b)

instance trails_endScope : Trails ps endScope :=
  trails_of_shape Shape.endScope Shape.endScope_mono fun s => (endScope_shape s).2

instance trails_complain (c : Complaint) : Trails ps (complain c) where
  run _ hsober _ hc := absurd hc (hsober.complain _ _)

instance trails_complainIf : ∀ (b : Bool) (c : Complaint), Trails ps (complainIf b c)
  | false, _ => trails_pure ()
  | true, c => trails_complain c

theorem patchJump_within {j : Nat} (h : s.context.shape.size ≤ j + 65537) :
    (s.Ended → ((patchJump j).run s).2.Ended) ∧ ((patchJump j).run s).2.context.shape =
      s.context.shape := by
  have hrun : (patchJump j).run s = ((), { s with context := { s.context with
      chunk := (s.context.chunk.patchShort j (s.context.chunk.code.size - j - 2)).2 } }) := by
    show StateT.run (m := Id) (if 65535 < s.context.chunk.code.size - j - 2 then _ else _) s = _
    rw [if_neg (by simp only [Context.shape] at h; omega)]
    rfl
  rw [hrun]
  exact ⟨fun hs => ⟨hs.eof, hs.clean, hs.calm⟩, by simp [Context.shape, Chunk.patchShort]⟩

theorem patchJump_limit {j : Nat} (hs : s.Sober) (hc : ((patchJump j).run s).2.Clean) :
    s.context.shape.size ≤ j + 65537 := by
  by_contra hlong
  have hrun : ((patchJump j).run s).2 = s.complainAt s.previous (.limit .jumpSize) := by
    show (StateT.run (m := Id) (if 65535 < s.context.chunk.code.size - j - 2 then _ else _) s).2 = _
    rw [if_pos (by simp only [Context.shape] at hlong; omega)]
    rfl
  rw [hrun] at hc
  exact hs.complain _ _ hc

instance trails_patchJump (j : Nat) : Trails ps (patchJump j) where
  run {S F} h hsober _ hc := by
    have hlimit := patchJump_limit hsober hc
    obtain ⟨hended, hshape⟩ := patchJump_within (h.le.1.trans hlimit)
    refine .inr ⟨hended h.toEnded, ?_⟩
    rw [hshape, (patchJump_within hlimit).2]
    exact h.le

instance trails_patchSkip : ∀ j? : Option Nat, Trails ps (patchSkip j?)
  | none => trails_pure ()
  | some _ => lags_bind ..

/-- The code that drops the comparison of a case, if there is one. -/
def pops : Option Nat → Nat
  | some _ => 1
  | none => 0

theorem patchSkip_within (h : ∀ j ∈ j?, s.context.shape.size ≤ j + 65537) :
    (s.Ended → ((patchSkip j?).run s).2.Ended) ∧ ((patchSkip j?).run s).2.context.shape =
      s.context.shape.add (pops j?) := by
  cases j? with
  | none => exact ⟨id, rfl⟩
  | some j =>
    obtain ⟨hended, hshape⟩ := patchJump_within (h j rfl)
    have hpop : Idles (emit .pop) := inferInstance
    exact ⟨fun hs => hpop.run (hended hs), (emit_shape .pop _).trans (congrArg (·.add 1) hshape)⟩

theorem patchSkip_limit (hs : s.Sober) (hc : ((patchSkip j?).run s).2.Clean) :
    ∀ j ∈ j?, s.context.shape.size ≤ j + 65537 := by
  rintro j rfl
  exact patchJump_limit hs hc

theorem patchJump?_within (h : ∀ j ∈ j?, s.context.shape.size ≤ j + 65537) :
    (s.Ended → ((patchJump? j?).run s).2.Ended) ∧ ((patchJump? j?).run s).2.context.shape =
      s.context.shape := by
  cases j? with
  | none => exact ⟨id, rfl⟩
  | some j => exact patchJump_within (h j rfl)

theorem patchJump?_limit (hs : s.Sober) (hc : ((patchJump? j?).run s).2.Clean) :
    ∀ j ∈ j?, s.context.shape.size ≤ j + 65537 := by
  rintro j rfl
  exact patchJump_limit hs hc

theorem emitLoop_run (target : Nat) (s : Compilation) :
    (emitLoop target).run s = StateT.run (m := Id) (do
    if 65535 < s.context.shape.size + 1 - target + 2 then complain (.limit .loopSize)
    emitByte (UInt8.ofNat ((s.context.shape.size + 1 - target + 2) / 256))
    emitByte (UInt8.ofNat (s.context.shape.size + 1 - target + 2)) : Comp Unit)
      ((emit .loop).run s).2 := by
  have hsize : s.context.shape.size + 1 = ((emit .loop).run s).2.context.chunk.code.size :=
    (congrArg Shape.size (emit_shape .loop s)).symm
  rw [hsize]
  rfl

theorem emitLoop_within {target : Nat} (h : s.context.shape.size + 1 - target + 2 ≤ 65535) :
    (s.Ended → ((emitLoop target).run s).2.Ended) ∧ ((emitLoop target).run s).2.context.shape =
      s.context.shape.add 3 := by
  rw [emitLoop_run, if_neg (Nat.not_lt.2 h)]
  exact ⟨fun hs => ⟨hs.eof, hs.clean, hs.calm⟩, (emitByte_shape _ _).trans
    (congrArg (·.add 1) ((emitByte_shape _ _).trans (congrArg (·.add 1) (emit_shape .loop s))))⟩

theorem emitLoop_limit {target : Nat} (hs : s.Sober) (hc : ((emitLoop target).run s).2.Clean) :
    s.context.shape.size + 1 - target + 2 ≤ 65535 := by
  by_contra hlong
  rw [emitLoop_run, if_pos (Nat.not_le.1 hlong)] at hc
  exact Compilation.Sober.complain (s := ((emit .loop).run s).2) hs _ _ hc

instance trails_emitLoop (target : Nat) : Trails ps (emitLoop target) where
  run {S F} h hsober _ hc := by
    have hlimit := emitLoop_limit hsober hc
    have hsize : S.context.shape.size ≤ F.context.shape.size := h.le.1
    have hwithin : S.context.shape.size + 1 - target + 2 ≤ 65535 := by omega
    obtain ⟨hended, hshape⟩ := emitLoop_within hwithin
    refine .inr ⟨hended h.toEnded, ?_⟩
    rw [hshape, (emitLoop_within hlimit).2]
    exact Shape.add_mono h.le 3

theorem patchAll_within {js : List Nat} (h : ∀ j ∈ js, s.context.shape.size ≤ j + 65537) :
    (s.Ended → ((patchAll js).run s).2.Ended) ∧ ((patchAll js).run s).2.context.shape =
      s.context.shape := by
  induction js generalizing s with
  | nil => exact ⟨id, rfl⟩
  | cons j js ih =>
    obtain ⟨hj, hjs⟩ := List.forall_mem_cons.1 h
    obtain ⟨hended, hshape⟩ := patchJump_within hj
    obtain ⟨hended', hshape'⟩ := ih (s := ((patchJump j).run s).2) (by rwa [hshape])
    exact ⟨fun hs => hended' (hended hs), hshape'.trans hshape⟩

theorem patchAll_limit {js : List Nat} (hs : s.Sober) (hc : ((patchAll js).run s).2.Clean) :
    ∀ j ∈ js, s.context.shape.size ≤ j + 65537 := by
  induction js generalizing s with
  | nil => nofun
  | cons j js ih =>
    have hkeeps : ∀ j, Obeys KeepsComplaints (patchJump j) := inferInstance
    have hkeeps' : ∀ js, Obeys KeepsComplaints (patchAll js) := inferInstance
    have hfirst := patchJump_limit hs (((hkeeps' js).run _).clean hc)
    have hrest := ih (((hkeeps j).run s).sober hs) hc
    rw [(patchJump_within hfirst).2] at hrest
    exact List.forall_mem_cons.2 ⟨hfirst, hrest⟩

instance trails_endBreakable : Trails ps endBreakable where
  run {S F} h hsober _ hc := by
    rw [endBreakable_run] at hc ⊢
    rw [endBreakable_run]
    have hle : S.leaveBreakable.context.shape ≤ F.leaveBreakable.context.shape := by
      rw [Compilation.shape_leaveBreakable, Compilation.shape_leaveBreakable]
      exact Shape.endBreakable_mono h.le
    have hlimit := patchAll_limit (s := F.leaveBreakable) hsober hc
    have hbreaks : S.context.shape.breaks.headD [] <+: F.context.shape.breaks.headD [] := by
      obtain ⟨-, -, -, hbreaks⟩ := h.le
      simp only [Shape.close] at hbreaks
      cases hbreaks' : S.context.shape.breaks <;> cases hbreaks'' : F.context.shape.breaks <;> simp_all
    obtain ⟨hended, hshape⟩ := patchAll_within (s := S.leaveBreakable) fun j hj =>
      hle.1.trans (hlimit j (hbreaks.subset hj))
    refine .inr ⟨hended ⟨h.eof, h.clean, h.calm⟩, ?_⟩
    rw [hshape, (patchAll_within hlimit).2]
    exact hle

end Comp

end Parlance
