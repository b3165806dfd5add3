/-
  A compilation comes to its end.
-/
import Parlance.Proofs.Compiler.Rounds

namespace Parlance

namespace Compilation

variable {s t : Compilation} {last : Token} {text after after' : List Token}

/-- What is left of a text that ends with `last`. -/
def Remains (last : Token) (text : List Token) (s : Compilation) : Prop :=
  if s.current.kind = .eof then text = [] else ∃ ahead, text = ahead ++ [last] ∧
    ∀ t ∈ ahead, t.kind ≠ .eof

/-- A compilation of a text that ends with `last`, with `after` behind it. -/
def Awaits (last : Token) (after : List Token) (s : Compilation) : Prop :=
  ∃ text, s.Remains last text ∧ s.rest = text ++ after

/-- Two compilations of such a text, with `after` behind it and with `after'`. -/
def Variant (last : Token) (after after' : List Token) (s t : Compilation) : Prop :=
  ∃ text, s.Remains last text ∧ s.rest = text ++ after ∧ t = { s with rest := text ++ after' }

theorem Awaits.variant (h : s.Awaits last after) : Variant last after after s s := by
  obtain ⟨text, hremains, hrest⟩ := h
  exact ⟨text, hremains, hrest, by rw [← hrest]⟩

theorem Variant.awaits (h : Variant last after after' s t) : s.Awaits last after := by
  obtain ⟨text, hremains, hrest, -⟩ := h
  exact ⟨text, hremains, hrest⟩

theorem Awaits.rest_eq (h : s.Awaits last after) (hkind : s.current.kind = .eof) : s.rest = after := by
  obtain ⟨text, hremains, hrest⟩ := h
  rw [Remains, if_pos hkind] at hremains
  rw [hrest, hremains, List.nil_append]

theorem complainAt_with_rest (s : Compilation) (t : Token) (c : Complaint) (rest : List Token) :
    ({ s with rest } : Compilation).complainAt t c = { s.complainAt t c with rest } := by
  unfold complainAt
  simp only
  split <;> rfl

theorem fetch_text (hlast : last.kind = .eof) {ahead : List Token}
    (hahead : ∀ t ∈ ahead, t.kind ≠ .eof) (s : Compilation) :
    ∃ (u : Compilation) (text : List Token), u.Remains last text ∧
      ∀ after rest, { s with rest }.fetch (ahead ++ [last] ++ after) =
      { u with rest := text ++ after } := by
  induction ahead generalizing s with
  | nil =>
    refine ⟨{ s with current := last }, [], (if_pos hlast).mpr rfl, fun after rest => ?_⟩
    have hne : ¬ (last.kind == .error) = true := by rw [hlast]; decide
    simp only [List.nil_append, List.cons_append, fetch, if_neg hne]
  | cons t ahead ih =>
    have hahead' : ∀ t ∈ ahead, t.kind ≠ .eof := fun u hu => hahead u (List.mem_cons_of_mem _ hu)
    by_cases herror : (t.kind == .error) = true
    · obtain ⟨u, text, hremains, hfetch⟩ := ih hahead' (s.complainAt t (.lexical t.text))
      refine ⟨u, text, hremains, fun after rest => ?_⟩
      simp only [List.cons_append, fetch, if_pos herror, complainAt_with_rest]
      exact hfetch after rest
    · have hkind : t.kind ≠ .eof := hahead t List.mem_cons_self
      refine ⟨{ s with current := t }, ahead ++ [last], ?_, fun after rest => ?_⟩
      · rw [Remains, if_neg hkind]
        exact ⟨ahead, rfl, hahead'⟩
      · simp only [List.cons_append, fetch, if_neg herror]

theorem Variant.advance (hlast : last.kind = .eof) (h : Variant last after after' s t) :
    Variant last after after' s.advance t.advance := by
  obtain ⟨text, hremains, hrest, rfl⟩ := h
  by_cases hkind : s.current.kind = .eof
  · simp only [Compilation.advance, hkind, beq_self_eq_true, if_true]
    exact ⟨text, hremains, hrest, rfl⟩
  · rw [Remains, if_neg hkind] at hremains
    obtain ⟨ahead, rfl, hahead⟩ := hremains
    obtain ⟨u, text, hleft, hfetch⟩ := fetch_text hlast hahead { s with previous := s.current }
    simp only [Compilation.advance, beq_iff_eq, hkind, if_false, hrest]
    exact ⟨text, by rw [hfetch]; exact hleft, by rw [hfetch], by rw [hfetch, hfetch]⟩

theorem Variant.complain (h : Variant last after after' s t) (u : Token) (c : Complaint) :
    Variant last after after' (s.complainAt u c) (t.complainAt u c) := by
  obtain ⟨text, hremains, hrest, rfl⟩ := h
  refine ⟨text, ?_, ?_, complainAt_with_rest s u c _⟩
  · rwa [Remains, complainAt_current]
  · rw [complainAt_rest, hrest]

theorem variant_match (hlast : last.kind = .eof) :
    Match fun (_ : Unit) => Variant last after after' where
  context := by rintro _ s t ⟨text, -, -, rfl⟩; rfl
  around := by rintro _ s t ⟨text, -, -, rfl⟩; rfl
  builds := by rintro _ s t ⟨text, -, -, rfl⟩; rfl
  text := by rintro _ s t ⟨text, -, -, rfl⟩; rfl
  line := by rintro _ s t ⟨text, -, -, rfl⟩; rfl
  clean := by rintro _ s t ⟨text, -, -, rfl⟩; rfl
  write _ _ _ := by
    rintro ⟨text, hremains, hrest, rfl⟩
    exact ⟨text, hremains, hrest, rfl⟩
  complain c h := by
    have hprevious : _ = _ := congrArg previous h.choose_spec.2.2
    rw [hprevious]
    exact Variant.complain h _ c
  kind := by rintro _ s t ⟨text, -, -, rfl⟩; rfl
  before := by rintro _ s t ⟨text, -, -, rfl⟩; rfl
  panicking := by rintro _ s t ⟨text, -, -, rfl⟩; rfl
  complainHere c h := by
    have hcurrent : _ = _ := congrArg current h.choose_spec.2.2
    rw [hcurrent]
    exact Variant.complain h _ c
  advance := Variant.advance hlast
  calm := by
    rintro _ s t ⟨text, hremains, hrest, rfl⟩
    exact ⟨text, hremains, hrest, rfl⟩

theorem fetch_suffix (s : Compilation) (ts : List Token) : (s.fetch ts).rest <:+ ts := by
  induction ts generalizing s with
  | nil => exact List.suffix_refl _
  | cons t ts ih =>
    rw [fetch]
    split
    · exact (ih _).trans (List.suffix_cons _ _)
    · exact List.suffix_cons _ _

/-- Tokens are taken from the front. -/
instance lasting_suffix : Lasting fun (ts : List Token) s => s.rest <:+ ts where
  write _ _ _ h := h
  complain c h := by rwa [complainAt_rest]
  complainHere c h := by rwa [complainAt_rest]
  advance {_ s} h := by
    unfold advance
    dsimp only
    split
    · exact h
    · exact (fetch_suffix _ _).trans h
  calm h := h

end Compilation

namespace Comp

variable {s : Compilation}

theorem program_reaches (z : Recur) {fuel n : Nat} (hs : s.left ≤ n)
    (hfuel : Goal.program.rounds n ≤ fuel) :
    ((parseFrom z fuel .program).run s).2.current.kind = .eof := by
  induction fuel generalizing n s with
  | zero => simp [Goal.rounds] at hfuel
  | succ fuel ih =>
    show ((parseProgram (parseFrom z fuel)).run s).2.current.kind = .eof
    rw [parseProgram_run]
    simp only [Goal.rounds] at hfuel
    by_cases hkind : s.current.kind = .eof
    · rw [if_pos hkind]
      show s.advance.current.kind = .eof
      simp [Compilation.advance, hkind]
    · have hsentence :=
        (parseFrom_passes z z fuel .declaration (by simp only [Goal.rounds]; omega) s hs).2
      have hpos := Compilation.left_pos hkind
      rw [if_neg hkind]
      exact ih hsentence (by simp only [Goal.rounds, Goal.leaves]; omega)

/-- Recovery comes to a place where a sentence may begin, or to the end of the text. -/
theorem skipFor_stops {fuel : Nat} (h : s.left ≤ fuel) :
    (skipFor fuel s).current.kind = .eof ∨ (skipFor fuel s).previous.kind = .semicolon ∨
      beginsSentence (skipFor fuel s).current.kind = true := by
  induction fuel generalizing s with
  | zero =>
    by_contra hno
    exact absurd h (Nat.not_le.2 (Compilation.left_pos fun hkind => hno (.inl hkind)))
  | succ fuel ih =>
    rw [skipFor]
    split
    · rename_i hstop
      simpa [or_assoc] using hstop
    · exact ih (Nat.le_trans s.advance_left (Nat.sub_le_of_le_add h))

/-- Neither the rounds beyond those that a goal takes nor what comes after them shows. -/
theorem parseFrom_run_eq (z z' : Recur) (more : Nat) {fuel : Nat} (g : Goal) [g.Proper]
    (hfuel : g.rounds s.left ≤ fuel) :
    (parseFrom z' (more + fuel) g).run s = (parseFrom z fuel g).run s := by
  rw [parseFrom_add]
  exact (parseFrom_passes z (parseFrom z' more) fuel g hfuel s (Nat.le_refl _)).1

end Comp

namespace Compilation

variable {s : Compilation} {last : Token} {after : List Token}

theorem Awaits.taken_ne_nil {s' : Compilation} (h : s.Awaits last after) (h' : s'.Awaits last after)
    (hleft : s'.left < s.left)
    {taken : List Token} (htaken : s.rest = taken ++ s'.rest) : taken ≠ [] := by
  rintro rfl
  have hkind : s.current.kind ≠ .eof := fun hkind => absurd hleft (by simp [left, hkind])
  by_cases hkind' : s'.current.kind = .eof
  · obtain ⟨text, hremains, hrest⟩ := h
    rw [Remains, if_neg hkind] at hremains
    obtain ⟨ahead, rfl, -⟩ := hremains
    rw [htaken, h'.rest_eq hkind'] at hrest
    have hlength := congrArg List.length hrest
    simp at hlength
    omega
  · simp [left, hkind, hkind', htaken] at hleft

/-- A goal takes tokens from the front of what is left, and a sentence takes one at least. -/
theorem Awaits.parse (h : s.Awaits last after) (hlast : last.kind = .eof) (z : Recur) {fuel : Nat}
    (g : Goal) [g.Proper] (hfuel : g.rounds s.left ≤ fuel) :
    let s' := ((Comp.parseFrom z fuel g).run s).2
    s'.Awaits last after ∧ ∃ taken, s.rest = taken ++ s'.rest ∧
    (g.leaves s.left < s.left → taken ≠ []) := by
  have : Match fun (_ : Unit) => Variant last after after := variant_match hlast
  have := Comp.fellows_parse (A := fun (_ : Unit) => Variant last after after) fuel
  have := Comp.fellows_parse (A := Shared fun (ts : List Token) s => s.rest <:+ ts) fuel
  have hparse := Comp.parseFrom_run_eq (fun _ => pure ()) z 0 g hfuel
  rw [← Comp.parse_eq_parseFrom, Nat.zero_add] at hparse
  have hleft := (Comp.parseFrom_passes z z fuel g hfuel s (Nat.le_refl _)).2
  rw [hparse] at hleft ⊢
  obtain ⟨taken, htaken⟩ :=
    Comp.lasting_run (I := fun (ts : List Token) s => s.rest <:+ ts) (x := Comp.parse fuel g)
    (List.suffix_refl s.rest)
  have hawaits :=
    (Comp.Abreast.run (A := fun (_ : Unit) => Variant last after after) (x := Comp.parse fuel g)
    (y := Comp.parse fuel g) (i := ()) h.variant).2.awaits
  exact ⟨hawaits, taken, htaken.symm, fun hless =>
    h.taken_ne_nil hawaits (Nat.lt_of_le_of_lt hleft hless) htaken.symm⟩

theorem start_variant {before : List Token} (hbefore : ∀ t ∈ before, t.kind ≠ .eof) (last : Token)
    (after after' : List Token) :
    Variant last after after' (.start (before ++ last :: after)) (.start (before ++ last :: after')) :=
  ⟨before ++ [last], (if_neg nofun).mpr ⟨before, rfl, hbefore⟩,
    List.append_cons .., by rw [← List.append_cons]; rfl⟩

theorem Awaits.script (h : s.Awaits last after) (hlast : last.kind = .eof) (z : Recur) {fuel : Nat}
    (hfuel : 4 * s.left + 4 ≤ fuel) :
    ((Comp.script (Comp.parseFrom z fuel)).run s).2.rest = after := by
  have hfirst : s.advance.Awaits last after := (h.variant.advance hlast).awaits
  have hprogram : Goal.program.rounds s.advance.left ≤ fuel := by
    have := s.advance_left
    simp only [Goal.rounds]
    omega
  exact (hfirst.parse hlast z .program hprogram).1.rest_eq
    (Comp.program_reaches z (Nat.le_refl _) hprogram)

end Compilation

/-- What stands behind the end of the text does not show in a compilation. -/
theorem compileTokens_variant {before : List Token} {last : Token}
    (hbefore : ∀ t ∈ before, t.kind ≠ .eof) (hlast : last.kind = .eof) (after after' : List Token) :
    compileTokens (before ++ last :: after') = compileTokens (before ++ last :: after) := by
  let fuel := 8 * ((before ++ last :: after).length + 2) + 8 * ((before ++ last :: after').length + 2)
  have : Compilation.Match fun (_ : Unit) => Compilation.Variant last after after' :=
    Compilation.variant_match hlast
  have := Comp.fellows_parse (A := fun (_ : Unit) => Compilation.Variant last after after') fuel
  obtain ⟨hproto, text, -, -, hended⟩ :=
    Comp.Abreast.run (A := fun (_ : Unit) => Compilation.Variant last after after') (i := ())
    (x := Comp.script (Comp.parse fuel)) (y := Comp.script (Comp.parse fuel))
    (Compilation.start_variant hbefore last after after')
  rw [compileTokens_eq_parseFrom (fun _ => pure ()) _ (Nat.le_add_left _ _ : _ ≤ fuel),
    compileTokens_eq_parseFrom (fun _ => pure ()) _ (Nat.le_add_right _ _ : _ ≤ fuel),
    ← Comp.parse_eq_parseFrom]
  unfold Compiled.ofRun
  rw [hproto, hended]

/-- **The compiler takes each token of the text once and none behind it, and each sentence takes one
at least.** -/
theorem compileTokens_ends (before : List Token) (last : Token) (hbefore : ∀ t ∈ before, t.kind ≠ .eof)
    (hlast : last.kind = .eof) (after : List Token) :
    let ts := before ++ last :: after
    (∀ z fuel, 8 * (ts.length + 2) ≤ fuel →
      let r := (Comp.script (Comp.parseFrom z fuel)).run (.start ts)
      compileTokens ts = .ofRun r ∧ r.2.rest = after) ∧
    (∀ after', compileTokens (before ++ last :: after') = compileTokens ts) ∧
    (∀ s : Compilation, s.Awaits last after → ∀ (g : Goal) [g.Proper] z fuel, g.rounds s.left ≤ fuel →
      let s' := ((Comp.parseFrom z fuel g).run s).2
      (∀ z' more, (Comp.parseFrom z' (more + fuel) g).run s = (Comp.parseFrom z fuel g).run s) ∧
      s'.Awaits last after ∧
      ∃ taken, s.rest = taken ++ s'.rest ∧ (g = .declaration → s.current.kind ≠ .eof → taken ≠ [])) ∧
    ∀ s : Compilation, let s' := (Comp.recover.run s).2
      s'.current.kind = .eof ∨ s'.previous.kind = .semicolon ∨
      Comp.beginsSentence s'.current.kind = true := by
  intro ts
  have hstart : (Compilation.start ts).left ≤ ts.length + 1 := Nat.le_of_eq (if_neg nofun)
  refine ⟨fun z fuel hfuel => ⟨compileTokens_eq_parseFrom z ts hfuel, ?_⟩, fun after' => ?_,
    fun s hs g _ z fuel hfuel => ?_, fun s => Comp.skipFor_stops (Compilation.left_le _)⟩
  · have hawaits : (Compilation.start ts).Awaits last after :=
      (Compilation.start_variant hbefore last after after).awaits
    exact hawaits.script hlast z (by omega)
  · exact compileTokens_variant hbefore hlast after after'
  · obtain ⟨hawaits, taken, htaken, hne⟩ := hs.parse hlast z g hfuel
    refine ⟨fun z' more => Comp.parseFrom_run_eq z z' more g hfuel, hawaits, taken, htaken, ?_⟩
    rintro rfl hkind
    exact hne (Nat.sub_lt (Compilation.left_pos hkind) Nat.one_pos)

theorem compileTokens_ends_unclosed : ((Comp.script (Comp.parseFrom (fun _ => pure ()) 56)).run
      (.start [⟨.leftBrace, "\x7b", {}⟩, ⟨.error, "?", {}⟩, ⟨.leftBrace, "\x7b", {}⟩,
        ⟨.eof, "", {}⟩, ⟨.nul, "nul", {}⟩])).2.rest =
      [⟨.nul, "nul", {}⟩] :=
  ((compileTokens_ends [⟨.leftBrace, "\x7b", {}⟩, ⟨.error, "?", {}⟩, ⟨.leftBrace, "\x7b", {}⟩]
    ⟨.eof, "", {}⟩ (by decide) rfl [⟨.nul, "nul", {}⟩]).1 (fun _ => pure ()) 56 (by decide)).2

end Parlance
