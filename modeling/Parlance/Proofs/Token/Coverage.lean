/-
  Where tokens stand in their text.
-/
import Mathlib.Data.List.Basic
import Mathlib.Data.List.Induction
import Parlance.Proofs.Token.Reading

namespace Parlance

variable {before w : List Char}

/-! ## Lines and columns -/

/-- The line on which a text goes on behind `before`. -/
def lineBehind (before : List Char) : Nat := before.count '\n' + 1

/-- The column at which it goes on: the characters since the last line break count, and the next. -/
def columnBehind (before : List Char) : Nat := (before.reverse.takeWhile (· != '\n')).length + 1

theorem Position.after_append (p : Position) (cs ds : List Char) :
    p.after (cs ++ ds) = (p.after cs).after ds :=
  List.foldl_append

theorem Position.after_eq (cs : List Char) :
    ({} : Position).after cs = ⟨lineBehind cs, columnBehind cs⟩ := by
  induction cs using List.reverseRecOn with
  | nil => rfl
  | append_singleton cs c ih =>
    rw [after_append, ih]
    show Position.next _ c = _
    by_cases hc : c = '\n'
    · subst hc
      simp [Position.next, lineBehind, columnBehind]
    · simp [Position.next, lineBehind, columnBehind, hc]

/-! ## Pieces -/

/-- A token, what it was made of, and what was passed over before that. -/
structure Piece where
  gap : List Char
  lexeme : List Char
  token : Token

namespace Piece

def text (x : Piece) : List Char := x.gap ++ x.lexeme

/-- All characters up to the last of the lexeme. -/
def upTo (x : Piece) (before : List Char) : List Char := before ++ x.gap ++ x.lexeme.dropLast

/-- The token of a piece is that of its lexeme, which stands between `before` and `rest`, and so is
its place. -/
structure Fits (x : Piece) (before rest : List Char) : Prop where
  gap : Gap x.gap (x.lexeme ++ rest)
  lexeme : x.token.kind = .eof ∧ x.lexeme = [] ∧ rest = [] ∨ x.token.kind = .error ∧
    Misspelling x.lexeme rest x.token.text ∨ Spelling x.lexeme x.token.kind x.token.text
  line : x.token.location.line = lineBehind (before ++ x.gap)
  column : x.token.location.column = columnBehind (before ++ x.gap)
  last : x.token.kind ≠ .eof → x.token.kind ≠ .error →
    (lineBehind (x.upTo before) = lineBehind (before ++ x.gap) ∧
      x.token.location.lastColumn = some (columnBehind (x.upTo before) : Int)) ∨
    (lineBehind (x.upTo before) ≠ lineBehind (before ++ x.gap) ∧ x.token.location.lastColumn =
      none ∧ x.token.kind = .string)

theorem Fits.rest_of_eof {x : Piece} {before rest : List Char} (h : x.Fits before rest)
    (heof : x.token.kind = .eof) : rest = [] := by
  rcases h.lexeme with ⟨-, -, hrest⟩ | ⟨herror, -⟩ | hspelling
  · exact hrest
  · rw [heof] at herror
    cases herror
  · exact (hspelling.kind_ne_eof heof).elim

end Piece

theorem columnBehind_append (h : '\n' ∉ w) :
    columnBehind (before ++ w) = columnBehind before + w.length := by
  have hall : w.reverse.all (· != '\n') := by
    simp only [List.all_reverse, List.all_eq_true, bne_iff_ne]
    exact fun c hc heq => h (heq ▸ hc)
  rw [columnBehind, columnBehind, List.reverse_append, List.takeWhile_append_of_pos
    (List.all_eq_true.1 hall)]
  simp
  omega

/-- The line of a text is that on which its last character stands, unless that is a line break. -/
theorem lineBehind_dropLast (hw : w.getLast? ≠ some '\n') :
    lineBehind (before ++ w.dropLast) = lineBehind (before ++ w) := by
  rcases List.eq_nil_or_concat' w with rfl | ⟨w, c, rfl⟩
  · rfl
  · have hc : c ≠ '\n' := by simpa using hw
    simp [lineBehind, hc]

theorem extent_eq {file : String} (hne : w ≠ []) (hw : w.getLast? ≠ some '\n') :
    Cursor.extent file (({} : Position).after before) w =
      ⟨file, lineBehind before, columnBehind before,
      if lineBehind (before ++ w.dropLast) = lineBehind before then some
      (columnBehind (before ++ w.dropLast) : Int) else none⟩ := by
  rw [lineBehind_dropLast hw, Cursor.extent, ← Position.after_append, Position.after_eq,
    Position.after_eq]
  obtain ⟨w, c, rfl⟩ := (List.eq_nil_or_concat' w).resolve_left hne
  have hc : c ≠ '\n' := by simpa using hw
  dsimp only
  split
  · rename_i hline
    have hcount : '\n' ∉ w ++ [c] := by
      rw [lineBehind, lineBehind, List.count_append] at hline
      exact List.count_eq_zero.1 (by omega)
    have hcount' : '\n' ∉ w := fun h => hcount (List.mem_append_left _ h)
    have hspan : (lineBehind (before ++ (w ++ [c])) == lineBehind before &&
        decide (columnBehind before < columnBehind (before ++ (w ++ [c])))) = true := by
      rw [hline, columnBehind_append hcount]
      simp
    unfold Position.span
    dsimp only
    rw [if_pos hspan, List.dropLast_concat, columnBehind_append hcount, columnBehind_append hcount',
      List.length_append]
    rfl
  · rfl

/-! ## Tokens and their pieces -/

variable {file : String}

theorem Spelling.getLast?_ne {w : List Char} {k : Token.Kind} {s : String} (h : Spelling w k s) :
    w.getLast? ≠ some '\n' :=
  fun hlast => (h.newline (List.mem_of_getLast? hlast)).2 hlast

theorem Cursor.next_piece {c : Cursor} {before : List Char}
    (hp : c.position = ({} : Position).after before) :
    ∃ x : Piece, x.token = (c.next file).1 ∧ c.rest = x.text ++ (c.next file).2.rest ∧
      (c.next file).2.position = ({} : Position).after (before ++ x.text) ∧
        x.Fits before (c.next file).2.rest := by
  obtain ⟨g, rest, hrest, hg, hbegins⟩ := @next_spec file c
  rw [hp, ← Position.after_append] at hbegins
  generalize c.next file = r at hbegins
  obtain ⟨t, c'⟩ := r
  have hplace := Position.after_eq (before ++ g)
  cases hbegins with
  | eof h =>
    obtain rfl : rest = [] := h
    refine ⟨⟨g, [], _⟩, rfl, by simpa [Piece.text] using hrest, by simp [Piece.text], ?_⟩
    exact ⟨hg, .inl
      ⟨rfl, rfl, rfl⟩, by simp [Position.location, hplace], by simp [Position.location, hplace],
      fun h => (h rfl).elim⟩
  | @token w rest' k s h hw =>
    obtain rfl : rest = w ++ rest' := h
    refine ⟨⟨g, w, _⟩,
      rfl, by simp [Piece.text, hrest], by simp [Piece.text, ← Position.after_append], ?_⟩
    rw [extent_eq hw.ne_nil hw.getLast?_ne]
    refine ⟨hg, .inr (.inr hw), rfl, rfl, fun _ _ => ?_⟩
    dsimp only [Piece.upTo]
    split
    · rename_i hline
      exact .inl ⟨hline, rfl⟩
    · rename_i hline
      refine .inr ⟨hline, rfl, (hw.newline ?_).1⟩
      by_contra hnone
      rw [lineBehind_dropLast hw.getLast?_ne] at hline
      exact hline (by simp [lineBehind, List.count_append, List.count_eq_zero.2 hnone])
  | @fault w rest' s h hw =>
    obtain rfl : rest = w ++ rest' := h
    refine ⟨⟨g, w, _⟩,
      rfl, by simp [Piece.text, hrest], by simp [Piece.text, ← Position.after_append], ?_⟩
    exact ⟨hg, .inr
      (.inl ⟨rfl, hw⟩), by simp [Position.location, hplace], by simp [Position.location, hplace],
      fun _ h => (h rfl).elim⟩

theorem Cursor.Yields.pieces {c : Cursor} {ts : List Token} (h : c.Yields file ts) {before : List Char}
    (hp : c.position = ({} : Position).after before) :
    ∃ xs : List Piece, xs ≠ [] ∧ ts = xs.map Piece.token ∧ c.rest = xs.flatMap Piece.text ∧
      ∀ l x r, xs = l ++ x :: r →
      x.Fits (before ++ l.flatMap Piece.text) (r.flatMap Piece.text) ∧
      (x.token.kind = .eof ↔ r = []) := by
  induction h generalizing before with
  | @last c h =>
    obtain ⟨x, htoken, hrest, -, hfits⟩ := @next_piece file c before hp
    rw [← htoken] at h ⊢
    rw [hfits.rest_of_eof h] at hrest hfits
    refine ⟨[x], nofun, rfl, by simpa using hrest, fun l y r heq => ?_⟩
    obtain ⟨rfl, rfl, rfl⟩ : l = [] ∧ y = x ∧ r = [] := by
      cases l with
      | nil => simpa [eq_comm] using heq
      | cons => simp at heq
    exact ⟨by simpa using hfits, by simp [h]⟩
  | @more c ts h _ ih =>
    obtain ⟨x, htoken, hrest, hplace, hfits⟩ := @next_piece file c before hp
    obtain ⟨xs, hne, hts, hrest', hall⟩ := ih hplace
    rw [← htoken] at h ⊢
    rw [hrest'] at hrest hfits
    refine ⟨x :: xs, nofun, by rw [hts]; rfl, hrest, fun l y r heq => ?_⟩
    cases l with
    | nil =>
      obtain ⟨rfl, rfl⟩ : x = y ∧ xs = r := by simpa using heq
      exact ⟨by simpa using hfits, fun heof => (h heof).elim, fun hnil => (hne hnil).elim⟩
    | cons x' l =>
      obtain ⟨rfl, rfl⟩ : x = x' ∧ xs = l ++ y :: r := by simpa using heq
      have hy := hall l y r rfl
      rw [List.append_assoc] at hy
      exact hy

/-- **A text is the gaps and the lexemes of its tokens**, in their order, and each token stands
where its lexeme does. The last token and no other is the end of the text. -/
theorem tokens_cover (file source : String) :
    ∃ xs : List Piece, xs ≠ [] ∧ tokens file source = xs.map Piece.token ∧
    source.toList = xs.flatMap Piece.text ∧ ∀ l x r, xs = l ++ x :: r →
      x.Fits (l.flatMap Piece.text) (r.flatMap Piece.text) ∧ (x.token.kind = .eof ↔ r = []) :=
  (tokens_yields file source).pieces (Eq.refl (({} : Position).after []))

end Parlance
