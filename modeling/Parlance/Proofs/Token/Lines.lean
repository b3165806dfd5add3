/-
  A text and the same text with further lines.
-/
import Parlance.Proofs.Compiler.Entries
import Parlance.Proofs.Token.Reading
import Parlance.Tool.Repl

namespace Parlance

namespace Cursor

open Text

variable (v : List Char)

/-- The cursor with a further line, and those behind it. -/
def further (c : Cursor) : Cursor := ⟨c.rest ++ '\n' :: v, c.position⟩

/-! ## Blanks and comments -/

theorem head?_further {cs : List Char} {x : Char} (hx : x ≠ '\n')
    (h : (cs ++ '\n' :: v).head? = some x) : cs.head? = some x := by
  cases cs with
  | nil => exact absurd (Option.some.inj h).symm hx
  | cons y cs => exact h

theorem skipTriviaFrom_further {m : Trivia} {cs : List Char} {p : Position}
    (h : (skipTriviaFrom m cs p).1 = none) (hrest : (skipTriviaFrom m cs p).2.rest ≠ []) :
    skipTriviaFrom m (cs ++ '\n' :: v) p = (none, (skipTriviaFrom m cs p).2.further v) := by
  fun_induction skipTriviaFrom m cs p with
  | case1 cs p ih => exact ih h hrest
  | case2 cs p ih => exact ih h hrest
  | case3 c cs p _ _ hblank ih => exact (skipTriviaFrom_blank hblank _ p).trans (ih h hrest)
  | case4 c cs p hline hblock hblank =>
    have hfresh : Fresh (c :: (cs ++ '\n' :: v)) := ⟨by simpa using hblank, ?_⟩
    · exact skipTriviaFrom_fresh hfresh p
    rintro ⟨rfl, hhead⟩
    rcases hhead.imp (head?_further v (by decide)) (head?_further v (by decide)) with hhead | hhead
    · obtain ⟨cs', rfl⟩ := List.head?_eq_some_iff.1 hhead
      exact hline _ rfl rfl
    · obtain ⟨cs', rfl⟩ := List.head?_eq_some_iff.1 hhead
      exact hblock _ rfl rfl
  | case5 c cs p ih => exact ih h hrest
  | case6 start cs p ih => exact ih h hrest
  | case7 start c cs p hclose ih =>
    refine (skipTriviaFrom_block ?_ start p).trans (ih h hrest)
    rintro ⟨rfl, hhead⟩
    obtain ⟨cs', rfl⟩ := List.head?_eq_some_iff.1 (head?_further v (by decide) hhead)
    exact hclose _ rfl rfl
  | case8 => cases h
  | case9 => exact absurd rfl hrest

/-! ## Lexemes -/

theorem operator?_further (x : Char) (xs : List Char) :
    operator? (x :: (xs ++ '\n' :: v)) = operator? (x :: xs) := by
  refine operator?_congr fun c hc => ?_
  cases xs with
  | nil => simpa using fun h => absurd (h ▸ hc) (by decide)
  | cons y ys => rfl

theorem takeWhile_further {p : Char → Bool} (hp : p '\n' = false) (cs : List Char) :
    (cs ++ '\n' :: v).takeWhile p = cs.takeWhile p := by
  induction cs with
  | nil => exact List.takeWhile_cons_of_neg (by simp [hp])
  | cons c cs ih => rw [List.cons_append, List.takeWhile_cons, List.takeWhile_cons, ih]

theorem numberLength_further (cs : List Char) : numberLength (cs ++ '\n' :: v) = numberLength cs := by
  have hdigits := takeWhile_further v (p := isDigit) (by decide)
  have hle : (cs.takeWhile isDigit).length ≤ cs.length := (List.takeWhile_prefix isDigit).length_le
  unfold numberLength
  rw [hdigits]
  dsimp only
  rw [List.drop_append_of_le_length hle]
  match hrest : cs.drop (cs.takeWhile isDigit).length with
  | [] => rfl
  | [x] =>
    by_cases hx : x = '.'
    · subst hx
      exact if_neg (by decide)
    · simp [hx]
  | x :: y :: rest =>
    have hlt : (cs.takeWhile isDigit).length + 1 ≤ cs.length := by
      have := congrArg List.length hrest
      simp only [List.length_drop, List.length_cons] at this
      omega
    rw [List.drop_append_of_le_length hlt, hdigits]
    by_cases hx : x = '.'
    · subst hx
      rfl
    · simp [hx]

theorem numberLength_le (cs : List Char) : numberLength cs ≤ cs.length := by
  have hle : ∀ cs : List Char, (cs.takeWhile isDigit).length ≤ cs.length := fun cs =>
    (List.takeWhile_prefix isDigit).length_le
  unfold numberLength
  dsimp only
  split
  · rename_i c rest hrest
    split
    · have hdrop := congrArg List.length hrest
      have htail := hle (cs.drop ((cs.takeWhile isDigit).length + 1))
      simp only [List.length_drop, List.length_cons] at hdrop htail
      omega
    · exact hle cs
  · exact hle cs

theorem closeString_further {q : Char} {cs : List Char} {p : Position} {acc : List Char}
    {s : String} {c : Cursor}
    (h : closeString q cs p acc = (some s, c)) :
    closeString q (cs ++ '\n' :: v) p acc = (some s, c.further v) := by
  fun_induction closeString q cs p acc with
  | case1 => cases h
  | case2 x cs p acc hx =>
    cases h
    rw [List.cons_append, closeString.eq_def]
    exact if_pos hx
  | case3 => cases h
  | case4 x p acc hq hx e es ih =>
    rw [List.cons_append, closeString.eq_def]
    simp only [if_neg hq, if_pos hx]
    exact ih h
  | case5 x cs p acc hq hx ih =>
    rw [List.cons_append, closeString.eq_def]
    simp only [if_neg hq, if_neg hx]
    exact ih h

variable {v} {file : String}

theorem take_further {c : Cursor} {n : Nat} (hn : n ≤ c.rest.length) (kind : String → Token.Kind) :
    (c.further v).take file n kind = ((c.take file n kind).1, (c.take file n kind).2.further v) := by
  simp only [take, skip, further, List.take_append_of_le_length hn, List.drop_append_of_le_length hn]

end Cursor

/-- A string or comment that does not end. -/
def Token.Torn (t : Token) : Prop :=
  t.kind = .error ∧ (t.text = Cursor.unterminatedString ∨ t.text = Cursor.unterminatedComment)

namespace Cursor

variable {v : List Char} {file : String}

/-- Further lines do not change a token, unless the text ends inside of it. -/
theorem nextLexeme_further {c : Cursor} (hrest : c.rest ≠ []) :
    ((c.nextLexeme file).1.Torn ∧ (c.nextLexeme file).2.rest = []) ∨
      (c.further v).nextLexeme file = ((c.nextLexeme file).1, (c.nextLexeme file).2.further v) := by
  obtain ⟨cs, p⟩ := c
  obtain ⟨x, xs, rfl⟩ := List.exists_cons_of_ne_nil hrest
  have htake : ∀ n kind, n ≤ (x :: xs).length → (further v ⟨x :: xs, p⟩).take file n kind = _ :=
    fun n kind hn => take_further (c := ⟨x :: xs, p⟩) hn kind
  have hwords := takeWhile_further v (p := isWordChar) (by decide) (x :: xs)
  have hdigits := numberLength_further v (x :: xs)
  simp only [further, List.cons_append] at htake hwords hdigits ⊢
  simp only [nextLexeme, operator?_further]
  split
  · exact .inr (htake _ _ (by simp))
  · split
    · rename_i op k hop
      have hle := congrArg List.length (operator?_spec hop).1
      exact .inr (htake _ _ (by rw [List.length_take, String.length_toList] at hle; omega))
    · split
      · rw [hdigits]
        exact .inr (htake _ _ (numberLength_le _))
      · split
        · cases hclose : closeString x xs (p.next x) [] with
          | mk s? c' =>
            cases s? with
            | some s => exact .inr (by rw [closeString_further v hclose]; rfl)
            | none =>
              obtain ⟨b, s, -, ⟨hs, -⟩ | ⟨e, -, -, -, hc'⟩⟩ := closeString_spec hclose
              · cases hs
              · exact .inl ⟨⟨rfl, .inl rfl⟩, by rw [hc']⟩
        · split
          · rw [hwords]
            exact .inr (htake _ _ (List.takeWhile_prefix _).length_le)
          · exact .inr rfl

/-- A line break is part of no token, so further lines do not change the tokens before; but a string
or comment that does not end may end in them. -/
theorem next_further (c : Cursor) :
    (c.next file).1.kind = .eof ∨ ((c.next file).1.Torn ∧ (c.next file).2.rest = []) ∨
    (c.further v).next file = ((c.next file).1, (c.next file).2.further v) := by
  have hskipped := skipTriviaFrom_skipped .blanks c.rest c.position
  have hfurther := @skipTriviaFrom_further v .blanks c.rest c.position
  unfold next skipTrivia
  generalize skipTriviaFrom .blanks c.rest c.position = r at hskipped hfurther
  obtain ⟨start?, c'⟩ := r
  cases start? with
  | some start => exact .inr (.inl ⟨⟨rfl, .inr rfl⟩, by rw [hskipped.1]⟩)
  | none =>
    by_cases hrest : c'.rest = []
    · obtain ⟨cs, p⟩ := c'
      obtain rfl : cs = [] := hrest
      exact .inl rfl
    · refine .inr ((nextLexeme_further (v := v) hrest).imp id fun hnext => ?_)
      have hskip : skipTriviaFrom .blanks (c.further v).rest (c.further v).position =
        (none, c'.further v) := hfurther rfl hrest
      rw [hskip]
      exact hnext

/-- The tokens of a text come first in the text with further lines, up to the end of the text. -/
theorem Yields.further {c : Cursor} {ts ts' : List Token} (h : c.Yields file ts)
    (h' : (c.further v).Yields file ts') :
    ∃ before e g, Ending e ∧ ts = before ++ e ∧ ts' = before ++ g := by
  induction h generalizing ts' with
  | @last c h => exact ⟨[], _, ts', .whole h, rfl, rfl⟩
  | @more c ts h hts ih =>
    rcases @next_further v file c with heof | ⟨⟨hkind, htext⟩, hrest⟩ | hnext
    · exact (h heof).elim
    · -- the text ends with the token
      have heof : ((c.next file).2.next file).1.kind = .eof := by
        have hend : ∀ c' : Cursor, c'.rest = [] → (c'.next file).1.kind = .eof := by
          rintro ⟨cs, p⟩ rfl
          rfl
        exact hend _ hrest
      have hcut : ∀ place location,
          (⟨.lexical (c.next file).1.text, place, location⟩ : Diagnostic).isIncomplete = true := by
        intro place location
        rcases htext with htext | htext
        · simp [Diagnostic.isIncomplete, Complaint.message, htext, unterminatedString]
        · simp [Diagnostic.isIncomplete, Complaint.message, htext, unterminatedComment]
      cases hts with
      | last => exact ⟨[], _, ts', .torn hkind hcut, rfl, rfl⟩
      | more hne => exact (hne heof).elim
    · cases h' with
      | last heof => rw [hnext] at heof; exact (h heof).elim
      | more _ hts' =>
        rw [hnext] at hts' ⊢
        obtain ⟨before, e, g, he, rfl, rfl⟩ := ih hts'
        exact ⟨_ :: before, e, g, he, rfl, rfl⟩

end Cursor

/-- The tokens of a text and of the text with further lines. -/
theorem tokens_further (file source more : String) :
    ∃ before e g, Ending e ∧ tokens file source = before ++ e ∧
    tokens file (source ++ "\n" ++ more) = before ++ g := by
  have hfurther : Cursor.ofSource (source ++ "\n" ++ more) = (Cursor.ofSource source).further
      more.toList := by
    simp [Cursor.ofSource, Cursor.further]
  exact (tokens_yields file source).further (hfurther ▸ tokens_yields file (source ++ "\n" ++ more))

-- what a compilation comes to is never unfolded here
attribute [local irreducible] compileTokens

theorem compile_clean_iff (file file' source : String) :
    (compile file source).diagnostics = [] ↔ (compile file' source).diagnostics = [] := by
  have hunnamed : ∀ file, (compile file source).diagnostics.map Diagnostic.unnamed =
    (compile "" source).diagnostics := fun file =>
    congrArg Compiled.diagnostics (compile_unnamed file source)
  rw [← List.map_eq_nil_iff, hunnamed, ← hunnamed file', List.map_eq_nil_iff]

/-- **An entry that further lines can complete is complete, or more is asked for.** -/
theorem entry_completable (file source more : String) (script : Proto)
    (h : (compile file (source ++ "\n" ++ more)).result = .ok script) :
    (∃ script, (compile file source).result = .ok script) ∨ needsMore source = true := by
  obtain ⟨before, e, g, he, hsource, hmore⟩ := tokens_further "repl" source more
  have hclean : (compileTokens (before ++ g)).diagnostics = [] := by
    rw [← hmore]
    exact (compile_clean_iff file "repl" _).1 (Compiled.result_eq_ok.1 h).1
  have hends := compileTokens_follows he hclean
  rw [← hsource] at hends
  rcases hends with hclean | hincomplete
  · exact .inl ⟨_, Compiled.result_eq_ok.2 ⟨(compile_clean_iff file "repl" source).2 hclean, rfl⟩⟩
  · refine .inr ?_
    have hne : (compile "repl" source).diagnostics.isEmpty = false := by
      cases hds : (compile "repl" source).diagnostics with
      | nil =>
        rw [show compileTokens _ = compile "repl" source from rfl,
          hds] at hincomplete; cases hincomplete
      | cons d ds => rfl
    simp only [needsMore, Compiled.result, hne, Bool.false_eq_true, if_false]
    exact hincomplete

theorem entry_completable_function :
    ∃ script, (compile "" ("fonction f() \x7b" ++ "\n" ++ "\x7d")).result = .ok script ∧
    ((∃ script, (compile "" "fonction f() \x7b").result = .ok script) ∨
      needsMore "fonction f() \x7b" = true) := by
  obtain ⟨script, h⟩ : ∃ script, (compile "" ("fonction f() \x7b" ++ "\n" ++ "\x7d")).result =
    .ok script :=
    ⟨_, Compiled.result_eq_ok.2 ⟨by decide +kernel, rfl⟩⟩
  exact ⟨script, h, entry_completable _ _ _ script h⟩

end Parlance
