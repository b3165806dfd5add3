/-
  What the lexer passes over, and what it makes tokens of.
-/
import Parlance.Token.Lexer

namespace Parlance

open Text

/-! ## Gaps -/

/-- Blanks and comments in front of `rest`. A comment up to the end of its line may be the last
thing in a text. -/
inductive Gap : List Char → List Char → Prop
  | nil {rest} : Gap [] rest
  | blank {c g rest} (hc : isBlank c = true) (hg : Gap g rest) : Gap (c :: g) rest
  | line {b g rest} (hb : '\n' ∉ b) (hg : Gap g rest) : Gap ('/' :: '/' :: (b ++ '\n' :: g)) rest
  | lastLine {b} (hb : '\n' ∉ b) : Gap ('/' :: '/' :: b) []
  | block {b g rest} (hb : ¬ ['*', '/'] <:+: b ++ ['*']) (hg : Gap g rest) :
      Gap ('/' :: '*' :: (b ++ '*' :: '/' :: g)) rest

/-- Neither a blank nor a comment begins here. -/
def Fresh : List Char → Prop
  | [] => True
  | c :: cs => isBlank c = false ∧ ¬ (c = '/' ∧ (cs.head? = some '/' ∨ cs.head? = some '*'))

theorem Gap.line_cons {c : Char} {g rest : List Char} (hc : c ≠ '\n')
    (h : Gap ('/' :: '/' :: g) rest) : Gap ('/' :: '/' :: c :: g) rest := by
  generalize hw : '/' :: '/' :: g = w at h
  cases h with
  | nil => cases hw
  | blank hblank => cases hw; exact absurd hblank (by decide)
  | @line body g' _ hbody hg =>
    obtain rfl : g = body ++ '\n' :: g' := by simpa using hw
    exact .line (b := c :: body) (by simpa using ⟨hc.symm, hbody⟩) hg
  | @lastLine body hbody =>
    obtain rfl : g = body := by simpa using hw
    exact .lastLine (by simpa using ⟨hc.symm, hbody⟩)
  | block => simp at hw

theorem Gap.block_cons {c : Char} {g rest : List Char} (hc : ¬ (c = '*' ∧ g.head? = some '/'))
    (h : Gap ('/' :: '*' :: g) rest) : Gap ('/' :: '*' :: c :: g) rest := by
  generalize hw : '/' :: '*' :: g = w at h
  cases h with
  | nil => cases hw
  | blank hblank => cases hw; exact absurd hblank (by decide)
  | line => simp at hw
  | lastLine => simp at hw
  | @block body g' _ hbody hg =>
    obtain rfl : g = body ++ '*' :: '/' :: g' := by simpa using hw
    refine .block (b := c :: body) (fun hinfix => ?_) hg
    rcases List.infix_cons_iff.1 hinfix with hprefix | hinfix
    · obtain ⟨rfl, hslash⟩ := List.cons_prefix_cons.1 hprefix
      refine hc ⟨rfl, ?_⟩
      cases body with
      | nil => exact absurd hslash (by decide)
      | cons x body => simpa using (List.cons_prefix_cons.1 hslash).1.symm
    · exact hbody hinfix

namespace Cursor

/-- How a comment began inside of which the lexer stands. -/
def Trivia.opening : Trivia → List Char
  | .blanks => []
  | .line => ['/', '/']
  | .block _ => ['/', '*']

/-- The lexer has passed over blanks and comments; the last of them may be a comment that does not
end. -/
def Skipped (m : Trivia) (cs : List Char) (p : Position) : Option Position × Cursor → Prop
  | (none, c) => ∃ g, cs = g ++ c.rest ∧ Gap (m.opening ++ g) c.rest ∧ Fresh c.rest ∧
      c.position = p.after g
  | (some start, c) => c = ⟨[], p.after cs⟩ ∧
      ((m = .block start ∧ ¬ ['*', '/'] <:+: cs) ∨
        ∃ g body, cs = g ++ '/' :: '*' :: body ∧ Gap (m.opening ++ g) ('/' :: '*' :: body) ∧
          start = p.after g ∧ ¬ ['*', '/'] <:+: body)

theorem Skipped.after {m m' : Trivia} {cs : List Char} {p : Position} {r : Option Position × Cursor}
    (pre : List Char) (h : Skipped m' cs (p.after pre) r)
    (hgap : ∀ g rest, cs = g ++ rest → Gap (m'.opening ++ g) rest → Gap (m.opening ++ (pre ++ g)) rest)
    (htorn : ∀ start, m' = .block start → ¬ ['*', '/'] <:+: cs →
      (m = .block start ∧ ¬ ['*', '/'] <:+: pre ++ cs) ∨
      (m = .blanks ∧ pre = ['/', '*'] ∧ start = p)) :
    Skipped m (pre ++ cs) p r := by
  have happend : ∀ g, p.after (pre ++ g) = (p.after pre).after g := fun g => List.foldl_append
  match r, h with
  | (none, c), ⟨g, hcs, hg, hfresh, hp⟩ =>
    exact ⟨pre ++ g, by rw [hcs, List.append_assoc], hgap g _ hcs hg, hfresh,
      hp.trans (happend g).symm⟩
  | (some start, c), ⟨hc, hcut⟩ =>
    refine ⟨hc.trans (by rw [happend]), ?_⟩
    rcases hcut with ⟨hm, hbody⟩ | ⟨g, body, hcs, hg, hstart, hbody⟩
    · rcases htorn start hm hbody with htorn | ⟨rfl, rfl, rfl⟩
      · exact .inl htorn
      · exact .inr ⟨[], cs, rfl, .nil, rfl, hbody⟩
    · exact .inr ⟨pre ++ g, body, by rw [hcs, List.append_assoc], hgap g _ hcs hg,
        hstart.trans (happend g).symm, hbody⟩

theorem skipTriviaFrom_skipped (m : Trivia) (cs : List Char) (p : Position) :
    Skipped m cs p (skipTriviaFrom m cs p) := by
  fun_induction skipTriviaFrom m cs p with
  | case1 cs p ih => exact ih.after ['/', '/'] (fun _ _ _ hg => hg) nofun
  | case2 cs p ih =>
    refine ih.after ['/', '*'] (fun _ _ _ hg => hg) fun start hm _ => .inr ⟨rfl, rfl, ?_⟩
    cases hm
    rfl
  | case3 c cs p _ _ hblank ih => exact ih.after [c] (fun _ _ _ hg => .blank hblank hg) nofun
  | case4 c cs p hline hblock hblank =>
    refine ⟨[], rfl, .nil, ⟨by simpa using hblank, ?_⟩, rfl⟩
    rintro ⟨rfl, hhead | hhead⟩
    · obtain ⟨cs', rfl⟩ := List.head?_eq_some_iff.1 hhead
      exact hline _ rfl rfl
    · obtain ⟨cs', rfl⟩ := List.head?_eq_some_iff.1 hhead
      exact hblock _ rfl rfl
  | case5 c cs p ih =>
    refine ih.after [c] (fun g rest _ hg => ?_) fun start hm _ => by split at hm <;> cases hm
    by_cases hc : c = '\n'
    · subst hc
      exact Gap.line (b := []) (by simp) hg
    · rw [if_neg (by simpa using hc)] at hg
      exact Gap.line_cons hc hg
  | case6 start cs p ih =>
    exact ih.after ['*', '/'] (fun g rest _ hg => Gap.block (b := []) (by decide) hg) nofun
  | case7 start c cs p hclose ih =>
    have hhead : ¬ (c = '*' ∧ cs.head? = some '/') := by
      rintro ⟨rfl, hhead⟩
      obtain ⟨cs', rfl⟩ := List.head?_eq_some_iff.1 hhead
      exact hclose _ rfl rfl
    refine ih.after [c] (fun g rest hcs hg => Gap.block_cons (fun hc => hhead ?_) hg)
      fun start' hm hcs => .inl ⟨hm, ?_⟩
    · cases g with
      | nil => simp at hc
      | cons x g => simpa [hcs] using hc
    · intro hinfix
      rcases List.infix_cons_iff.1 hinfix with hprefix | hinfix
      · obtain ⟨rfl, cs', rfl⟩ := List.cons_prefix_cons.1 hprefix
        exact hhead ⟨rfl, rfl⟩
      · exact hcs hinfix
  | case8 start p => exact ⟨rfl, .inl ⟨rfl, by simp⟩⟩
  | case9 m p hm =>
    refine ⟨[], rfl, ?_, trivial, rfl⟩
    cases m with
    | blanks => exact .nil
    | line => exact .lastLine (by simp)
    | block start => exact (hm start rfl).elim

theorem skipTriviaFrom_blank {c : Char} (hc : isBlank c = true) (cs : List Char) (p : Position) :
    skipTriviaFrom .blanks (c :: cs) p = skipTriviaFrom .blanks cs (p.next c) := by
  rw [skipTriviaFrom, if_pos hc]
  all_goals
    rintro cs' rfl
    exact absurd hc (by decide)

theorem skipTriviaFrom_fresh {cs : List Char} (h : Fresh cs) (p : Position) :
    skipTriviaFrom .blanks cs p = (none, ⟨cs, p⟩) := by
  cases cs with
  | nil => rfl
  | cons c cs =>
    rw [skipTriviaFrom, if_neg (by simp [h.1])]
    all_goals
      rintro cs' rfl rfl
      exact h.2 ⟨rfl, by simp⟩

theorem skipTriviaFrom_block {c : Char} {cs : List Char} (h : ¬ (c = '*' ∧ cs.head? = some '/'))
    (start p : Position) :
    skipTriviaFrom (.block start) (c :: cs) p = skipTriviaFrom (.block start) cs (p.next c) := by
  rw [skipTriviaFrom]
  rintro cs' rfl rfl
  exact h ⟨rfl, rfl⟩

end Cursor

/-! ## Spellings -/

/-- A character that strings stand between. -/
def IsQuote (q : Char) : Prop := q = '\x22' ∨ q = '\x27'

/-- What may stand between two quotes `q`, and the characters that it gives. -/
inductive Quoted (q : Char) : List Char → List Char → Prop
  | nil : Quoted q [] []
  | plain {c b s} (hq : c ≠ q) (hc : c ≠ '\\') (h : Quoted q b s) : Quoted q (c :: b) (c :: s)
  | escape {e b s} (h : Quoted q b s) : Quoted q ('\\' :: e :: b) (Cursor.unescape e :: s)

/-- The text of a token, its kind and its value. -/
inductive Spelling : List Char → Token.Kind → String → Prop
  | symbol {c k} (h : Cursor.symbol? c = some k) : Spelling [c] k (String.ofList [c])
  | operator {w k} (h : Cursor.operator? w = some (String.ofList w, k)) :
      Spelling w k (String.ofList w)
  | number {w} (hw : w ≠ []) (h : w.all isDigit) : Spelling w .number (String.ofList w)
  | fraction {w f} (hw : w ≠ []) (h : w.all isDigit) (hf : f ≠ []) (h' : f.all isDigit) :
      Spelling (w ++ '.' :: f) .number (String.ofList (w ++ '.' :: f))
  | word {c w} (hc : isLetter c ∨ c = '_') (h : (c :: w).all Cursor.isWordChar) :
      Spelling (c :: w) ((Token.keyword? (String.ofList (c :: w))).getD .identifier)
      (String.ofList (c :: w))
  | string {q b s} (hq : IsQuote q) (h : Quoted q b s) : Spelling (q :: (b ++ [q])) .string
      (String.ofList s)

/-- A text in front of `rest` that is no token, and what is wrong with it. -/
inductive Misspelling : List Char → List Char → String → Prop
  | comment {b} (hb : ¬ ['*', '/'] <:+: b) : Misspelling ('/' :: '*' :: b)
      [] Cursor.unterminatedComment
  | string {q b s e} (hq : IsQuote q) (h : Quoted q b s) (he : e = [] ∨ e = ['\\']) :
      Misspelling (q :: (b ++ e)) [] Cursor.unterminatedString
  | character {c rest} (hsymbol : Cursor.symbol? c = none) (hop : Cursor.operator? (c :: rest) = none)
      (hdigit : isDigit c = false) (hq : ¬ IsQuote c) (hletter : isLetter c = false) (hc : c ≠ '_') :
      Misspelling [c] rest Cursor.unexpectedCharacter

namespace Cursor

theorem closeString_spec {q : Char} {cs : List Char} {p : Position} {acc : List Char}
    {s? : Option String} {c : Cursor} (h : closeString q cs p acc = (s?, c)) : ∃ b s, Quoted q b s ∧
      ((s? = some (String.ofList (acc.reverse ++ s)) ∧ cs = b ++ q :: c.rest ∧
        c.position = p.after (b ++ [q])) ∨
        ∃ e, (e = [] ∨ e = ['\\']) ∧ s? = none ∧ cs = b ++ e ∧ c = ⟨[], p.after (b ++ e)⟩) := by
  fun_induction closeString q cs p acc with
  | case1 p acc =>
    cases h
    exact ⟨[], [], .nil, .inr ⟨[], .inl rfl, rfl, rfl, rfl⟩⟩
  | case2 x cs p acc hx =>
    obtain rfl := eq_of_beq hx
    cases h
    exact ⟨[], [], .nil, .inl ⟨by simp, rfl, rfl⟩⟩
  | case3 x p acc hq hx =>
    obtain rfl := eq_of_beq hx
    cases h
    exact ⟨[], [], .nil, .inr ⟨['\\'], .inr rfl, rfl, rfl, rfl⟩⟩
  | case4 x p acc hq hx e es ih =>
    obtain rfl := eq_of_beq hx
    obtain ⟨b, s, hb, ⟨hs, hcs, hp⟩ | ⟨e', he', hs, hcs, hp⟩⟩ := ih h
    · exact ⟨'\\' :: e :: b, unescape e :: s, .escape hb,
        .inl ⟨by simpa using hs, by rw [hcs]; rfl, hp⟩⟩
    · exact ⟨'\\' :: e :: b, unescape e :: s, .escape hb, .inr ⟨e', he', hs, by rw [hcs]; rfl, hp⟩⟩
  | case5 x cs p acc hq hx ih =>
    obtain ⟨b, s, hb, ⟨hs, hcs, hp⟩ | ⟨e', he', hs, hcs, hp⟩⟩ := ih h
    · exact ⟨x :: b, x :: s, .plain (by simpa using hq) (by simpa using hx) hb,
        .inl ⟨by simpa using hs, by rw [hcs]; rfl, hp⟩⟩
    · exact ⟨x :: b, x :: s, .plain (by simpa using hq) (by simpa using hx) hb,
        .inr ⟨e', he', hs, by rw [hcs]; rfl, hp⟩⟩

theorem operator?_spec {cs : List Char} {op : String} {k : Token.Kind}
    (h : operator? cs = some (op, k)) :
    cs.take op.length = op.toList ∧ operator? op.toList = some (op, k) ∧ '\n' ∉ op.toList ∧
      k ≠ .eof := by
  unfold operator? at h
  split at h <;> cases h <;> exact ⟨rfl, rfl, by decide, nofun⟩

/-- Of what follows the first character of an operator, only the marks count that longer ones end
with. -/
theorem operator?_of_head {x : Char} {xs ys : List Char} {o : String × Token.Kind}
    (h : operator? (x :: xs) = some o)
    (hhead : ∀ c ∈ ['+', '-', '='], ys.head? = some c ↔ xs.head? = some c) :
    operator? (x :: ys) = some o := by
  unfold operator? at h
  split at h
  case h_21 => cases h
  case h_1 | h_2 | h_4 | h_5 | h_7 | h_9 | h_11 | h_13 | h_15 | h_17 | h_19 =>
    rename_i heq
    cases heq
    obtain ⟨ys, rfl⟩ := List.head?_eq_some_iff.1 ((hhead _ (by simp)).2 rfl)
    exact h
  all_goals
    rename_i heq
    cases heq
    rw [operator?, h]
    all_goals
      rintro t rfl
      obtain ⟨xs, rfl⟩ := List.head?_eq_some_iff.1 ((hhead _ (by simp)).1 rfl)
      simp_all

theorem operator?_congr {x : Char} {xs ys : List Char}
    (hhead : ∀ c ∈ ['+', '-', '='], ys.head? = some c ↔ xs.head? = some c) :
    operator? (x :: ys) = operator? (x :: xs) := by
  cases h : operator? (x :: xs) with
  | some o => exact operator?_of_head h hhead
  | none =>
    refine Option.eq_none_iff_forall_ne_some.2 fun o ho => ?_
    rw [operator?_of_head ho fun c hc => (hhead c hc).symm] at h
    cases h

theorem takeWhile_take (p : Char → Bool) (cs : List Char) :
    cs.take (cs.takeWhile p).length = cs.takeWhile p :=
  (List.prefix_iff_eq_take.1 (List.takeWhile_prefix p)).symm

theorem numberLength_spec {x : Char} (xs : List Char) (hx : isDigit x = true) :
    Spelling ((x :: xs).take (numberLength (x :: xs))) .number
    (String.ofList ((x :: xs).take (numberLength (x :: xs)))) := by
  have hwhole := takeWhile_take isDigit (x :: xs)
  have hne : (x :: xs).takeWhile isDigit ≠ [] := by simp [hx]
  have hall : ∀ cs : List Char, (cs.takeWhile isDigit).all isDigit := fun cs => List.all_takeWhile
  unfold numberLength
  dsimp only
  split
  · rename_i c rest hdrop
    split
    · rename_i hc
      have htail : (x :: xs).drop (((x :: xs).takeWhile isDigit).length + 1) = c :: rest := by
        rw [← List.tail_drop, hdrop, List.tail_cons]
      have htake : (x :: xs).take (((x :: xs).takeWhile isDigit).length + 1 +
          (((x :: xs).drop (((x :: xs).takeWhile isDigit).length + 1)).takeWhile isDigit).length) =
          (x :: xs).takeWhile isDigit ++ '.' :: (c :: rest).takeWhile isDigit := by
        rw [Nat.add_assoc, List.take_add, hwhole, hdrop, htail, Nat.add_comm 1, List.take_succ_cons,
          takeWhile_take]
      rw [htake]
      exact .fraction hne (hall _) (by simp [hc]) (hall _)
    · rw [hwhole]
      exact .number hne (hall _)
  · rw [hwhole]
    exact .number hne (hall _)

/-! ## The next token -/

variable (file : String)

/-- The place of the text `w` at `p`. -/
def extent (p : Position) (w : List Char) : Location :=
  if (p.after w).line = p.line then p.span (p.after w) file else p.location file

/-- The token that begins the text of `c`, and the cursor behind it. -/
inductive Begins (c : Cursor) : Token → Cursor → Prop
  | eof (h : c.rest = []) : Begins c ⟨.eof, "", c.position.location file⟩ c
  | token {w rest k s} (hrest : c.rest = w ++ rest) (hw : Spelling w k s) :
      Begins c ⟨k, s, extent file c.position w⟩ ⟨rest, c.position.after w⟩
  | fault {w rest s} (hrest : c.rest = w ++ rest) (hw : Misspelling w rest s) :
      Begins c ⟨.error, s, c.position.location file⟩ ⟨rest, c.position.after w⟩

end Cursor

theorem not_newline {p : Char → Bool} {w : List Char} (hp : p '\n' = false) (h : w.all p) :
    '\n' ∉ w := fun hw => by
  rw [List.all_eq_true.1 h _ hw] at hp
  cases hp

/-- Only strings go over the end of a line, and they do not end with one. -/
theorem Spelling.newline {w : List Char} {k : Token.Kind} {s : String} (h : Spelling w k s)
    (hw : '\n' ∈ w) : k = .string ∧ w.getLast? ≠ some '\n' := by
  cases h with
  | symbol h =>
    obtain rfl := List.mem_singleton.1 hw
    cases h
  | operator h => exact absurd hw (by simpa using (Cursor.operator?_spec h).2.2.1)
  | number _ h => exact absurd hw (not_newline (by decide) h)
  | fraction _ h _ h' =>
    rcases List.mem_append.1 hw with hw | hw
    · exact absurd hw (not_newline (by decide) h)
    · exact absurd (by simpa using hw) (not_newline (by decide) h')
  | word _ h => exact absurd hw (not_newline (by decide) h)
  | @string q b s hq h =>
    refine ⟨rfl, fun hlast => ?_⟩
    rw [← List.cons_append, List.getLast?_concat, Option.some.injEq] at hlast
    subst hlast
    exact absurd hq (by unfold IsQuote; decide)

theorem Position.line_after {p : Position} {w : List Char} (h : '\n' ∉ w) :
    (p.after w).line = p.line := by
  induction w generalizing p with
  | nil => rfl
  | cons c w ih =>
    rw [List.mem_cons, not_or] at h
    refine (ih h.2).trans ?_
    rw [Position.next, if_neg fun hc => h.1 (eq_of_beq hc).symm]

namespace Cursor

variable {file : String}

theorem begins_take {c : Cursor} {n : Nat} {kind : String → Token.Kind}
    (h : Spelling (c.rest.take n) (kind (String.ofList (c.rest.take n)))
      (String.ofList (c.rest.take n)))
    (hline : '\n' ∉ c.rest.take n) : Begins file c (c.take file n kind).1 (c.take file n kind).2 := by
  have htoken : Begins file c _ _ := .token (List.take_append_drop n c.rest).symm h
  rw [extent, if_pos (Position.line_after hline)] at htoken
  exact htoken

theorem nextLexeme_begins (c : Cursor) :
    Begins file c (c.nextLexeme file).1 (c.nextLexeme file).2 := by
  obtain ⟨cs, p⟩ := c
  unfold nextLexeme
  split
  · rename_i h
    exact .eof h
  · rename_i x xs hcs
    obtain rfl : cs = x :: xs := hcs
    split
    · rename_i k hsymbol
      refine begins_take (.symbol hsymbol) fun hx => ?_
      obtain rfl := List.mem_singleton.1 hx
      cases hsymbol
    · rename_i hsymbol
      split
      · rename_i op k hop
        obtain ⟨htake, hop', hline, -⟩ := operator?_spec hop
        have hspelling : Spelling op.toList k op := by
          simpa using Spelling.operator (w := op.toList) (by simpa using hop')
        refine begins_take ?_ (htake ▸ hline)
        simp only [htake, String.ofList_toList]
        exact hspelling
      · rename_i hop
        split
        · rename_i hdigit
          have hnumber := numberLength_spec xs hdigit
          exact begins_take hnumber fun hw => nomatch (hnumber.newline hw).1
        · rename_i hdigit
          split
          · rename_i hquote
            have hq : IsQuote x := by simpa [IsQuote] using hquote
            split
            · rename_i text c' hclose
              obtain ⟨b, s, hb, ⟨hs, hxs, hp⟩ | ⟨e, -, hs, -⟩⟩ := closeString_spec hclose
              · cases hs
                have htoken : Begins file ⟨x :: xs, p⟩ _ ⟨c'.rest, _⟩ :=
                  .token (w := x :: (b ++ [x])) (by simp [hxs]) (.string hq hb)
                have hp' : p.after (x :: (b ++ [x])) = c'.position := hp.symm
                rw [extent, hp'] at htoken
                simpa using htoken
              · cases hs
            · rename_i c' hclose
              obtain ⟨b, s, hb, ⟨hs, -⟩ | ⟨e, he, -, hxs, hc'⟩⟩ := closeString_spec hclose
              · cases hs
              · rw [hc']
                exact .fault (w := x :: (b ++ e)) (by simp [hxs]) (.string hq hb he)
          · rename_i hquote
            split
            · rename_i hletter
              have hword : ((x :: xs).takeWhile isWordChar) = x :: xs.takeWhile isWordChar := by
                simp only [Bool.or_eq_true, beq_iff_eq] at hletter
                rw [List.takeWhile_cons, if_pos]
                rcases hletter with h | rfl
                · simp [isWordChar, h]
                · decide
              have hall : ((x :: xs).takeWhile isWordChar).all isWordChar := List.all_takeWhile
              refine begins_take ?_ ?_
              · simp only [takeWhile_take]
                rw [hword] at hall ⊢
                exact .word (by simpa using hletter) hall
              · simp only [takeWhile_take]
                exact not_newline (by decide) hall
            · rename_i hword
              simp only [Bool.or_eq_true, beq_iff_eq, not_or, Bool.not_eq_true] at hword
              exact .fault (w := [x]) rfl
                (.character hsymbol hop (by simpa using hdigit) (by simpa [IsQuote] using hquote)
                  hword.1 hword.2)

/-- **The next token**: a gap is passed over, and the token begins behind it. -/
theorem next_spec (c : Cursor) : ∃ g rest, c.rest = g ++ rest ∧ Gap g rest ∧
    Begins file ⟨rest, c.position.after g⟩ (c.next file).1 (c.next file).2 := by
  have hskipped := skipTriviaFrom_skipped .blanks c.rest c.position
  unfold next skipTrivia
  generalize skipTriviaFrom .blanks c.rest c.position = r at hskipped
  obtain ⟨start?, c'⟩ := r
  cases start? with
  | none =>
    obtain ⟨g, hrest, hg, -, hp⟩ := hskipped
    refine ⟨g, c'.rest, hrest, hg, ?_⟩
    rw [← hp]
    exact nextLexeme_begins c'
  | some start =>
    obtain ⟨hc', ⟨hm, -⟩ | ⟨g, body, hrest, hg, hstart, hbody⟩⟩ := hskipped
    · cases hm
    · refine ⟨g, _, hrest, hg, ?_⟩
      have hp : c.position.after c.rest = (c.position.after g).after ('/' :: '*' :: body) := by
        rw [hrest]
        exact List.foldl_append
      rw [hc', hstart, hp]
      exact .fault (List.append_nil _).symm (.comment hbody)

end Cursor

theorem Spelling.ne_nil {w : List Char} {k : Token.Kind} {s : String} (h : Spelling w k s) :
    w ≠ [] := by
  cases h with
  | operator h =>
    rintro rfl
    cases h
  | number hw => exact hw
  | _ => simp

theorem Misspelling.ne_nil {w rest : List Char} {s : String} (h : Misspelling w rest s) : w ≠ [] := by
  cases h <;> simp

theorem Spelling.kind_ne_eof {w : List Char} {k : Token.Kind} {s : String} (h : Spelling w k s) :
    k ≠ .eof := by
  rintro rfl
  generalize hk : Token.Kind.eof = k at h
  cases h with
  | symbol h =>
    unfold Cursor.symbol? at h
    split at h <;> cases h <;> cases hk
  | operator h => exact (Cursor.operator?_spec h).2.2.2 hk.symm
  | word =>
    cases hword : Token.keyword? _ with
    | none => rw [hword] at hk; cases hk
    | some k =>
      rw [hword] at hk
      obtain ⟨l1, l2, hkeywords, -⟩ := List.lookup_eq_some_iff.1 hword
      have hmem : (_, k) ∈ Token.keywords := hkeywords ▸ List.mem_append_right _ List.mem_cons_self
      exact absurd hk.symm ((show ∀ x ∈ Token.keywords, x.2 ≠ .eof by decide) _ hmem)
  | _ => cases hk

namespace Cursor

variable {file : String}

theorem next_shrinks {c : Cursor} (h : (c.next file).1.kind ≠ .eof) :
    (c.next file).2.rest.length < c.rest.length := by
  obtain ⟨g, rest, hrest, -, hbegins⟩ := @next_spec file c
  generalize c.next file = r at h hbegins
  obtain ⟨t, c'⟩ := r
  cases hbegins with
  | eof => exact absurd rfl h
  | token heq hw =>
    have := List.length_pos_iff.2 hw.ne_nil
    simp only at heq
    simp only [hrest, heq, List.length_append]
    omega
  | fault heq hw =>
    have := List.length_pos_iff.2 hw.ne_nil
    simp only at heq
    simp only [hrest, heq, List.length_append]
    omega

/-- The tokens from the cursor on, the first `eof` last. -/
inductive Yields (file : String) : Cursor → List Token → Prop
  | last {c} (h : (c.next file).1.kind = .eof) : Yields file c [(c.next file).1]
  | more {c ts} (h : (c.next file).1.kind ≠ .eof) (hts : Yields file (c.next file).2 ts) :
      Yields file c ((c.next file).1 :: ts)

theorem tokensFor_yields {fuel : Nat} {c : Cursor} (before : Array Token) (h : c.rest.length < fuel) :
    ∃ ts, c.Yields file ts ∧ (tokensFor file fuel c before).toList = before.toList ++ ts := by
  induction fuel generalizing c before with
  | zero => exact absurd h (Nat.not_lt_zero _)
  | succ fuel ih =>
    unfold tokensFor
    dsimp only
    split
    · rename_i heof
      exact ⟨_, .last (eq_of_beq heof), Array.toList_push⟩
    · rename_i hne
      have hne' : (c.next file).1.kind ≠ .eof := fun heof => hne (beq_iff_eq.2 heof)
      have hshrinks := next_shrinks hne'
      obtain ⟨ts, hts, htokens⟩ :=
        ih (before.push (c.next file).1) (Nat.lt_of_lt_of_le hshrinks (Nat.le_of_lt_succ h))
      exact ⟨_, .more hne' hts, by simpa using htokens⟩

end Cursor

theorem tokens_yields (file source : String) :
    (Cursor.ofSource source).Yields file (tokens file source) := by
  obtain ⟨ts, hts, htokens⟩ :=
    @Cursor.tokensFor_yields file _ (.ofSource source) #[] (Nat.lt_succ_self _)
  have heq : tokens file source = ts := by simpa [tokens] using htokens
  rwa [heq]

end Parlance
