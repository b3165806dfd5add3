/-
  Reading what was written.
-/
import Parlance.Proofs.Token.Reading

namespace Parlance

variable {c : Char}

open Text

/-! ## Characters -/

theorem Text.Ranges.mem_of_search {rs : Ranges} {n fuel lo hi : Nat}
    (h : rs.search n fuel lo hi = true) : ∃ r ∈ rs.toList, r.1 ≤ n ∧ n ≤ r.2 := by
  fun_induction search rs n fuel lo hi with
  | case1 | case2 | case6 => cases h
  | case3 _ _ _ _ _ _ _ _ _ ih | case4 _ _ _ _ _ _ _ _ _ _ ih => exact ih h
  | case5 _ lo hi _ _ first last hmid hn hn' =>
    exact ⟨(first, last), Array.mem_toList_iff.2 (Array.mem_of_getElem? hmid), Nat.not_lt.1 hn,
      Nat.not_lt.1 hn'⟩

theorem letterRanges_apart :
    letterRanges.toList.all (fun r => digitRanges.toList.all fun r' =>
      r.2.blt r'.1 || r'.2.blt r.1) = true := by
  decide +kernel

theorem isDigit_of_isLetter (h : isLetter c = true) : isDigit c = false := by
  unfold isLetter at h
  unfold isDigit
  split at h
  · rename_i hc
    rw [if_pos hc]
    have hcodes : ∀ n < 128, (Char.ofNat n).isAlpha = true → (Char.ofNat n).isDigit = false := by
      decide +kernel
    have hdigit := hcodes c.toNat hc
    rw [Char.ofNat_toNat] at hdigit
    exact hdigit h
  · rename_i hc
    rw [if_neg hc]
    obtain ⟨r, hr, hfirst, hlast⟩ := Ranges.mem_of_search h
    refine Bool.eq_false_iff.2 fun hdigit => ?_
    obtain ⟨r', hr', hfirst', hlast'⟩ := Ranges.mem_of_search hdigit
    have happart := List.all_eq_true.1 (List.all_eq_true.1 letterRanges_apart r hr) r' hr'
    simp only [Bool.or_eq_true, Nat.blt_eq] at happart
    omega

/-- The code points of blanks. -/
def blankCodes : List Nat :=
  [9, 10, 11, 12, 13, 0x20, 0x85, 0xA0, 0x1680, 0x2000, 0x2001, 0x2002, 0x2003, 0x2004, 0x2005,
    0x2006, 0x2007, 0x2008, 0x2009, 0x200A, 0x2028, 0x2029, 0x202F, 0x205F, 0x3000]

theorem mem_blankCodes (h : isBlank c = true) : c.toNat ∈ blankCodes := by
  simp only [isBlank, Bool.or_eq_true, Bool.and_eq_true, decide_eq_true_eq, beq_iff_eq] at h
  simp only [blankCodes, List.mem_cons, List.not_mem_nil, or_false]
  omega

theorem isWordChar_of_isBlank (h : isBlank c = true) : Cursor.isWordChar c = false := by
  have hcodes : ∀ n ∈ blankCodes, Cursor.isWordChar (Char.ofNat n) = false := by decide +kernel
  have hc := hcodes c.toNat (mem_blankCodes h)
  rwa [Char.ofNat_toNat] at hc

theorem isBlank_of_isWordChar (h : Cursor.isWordChar c = true) : isBlank c = false := by
  refine Bool.eq_false_iff.2 fun hblank => ?_
  rw [isWordChar_of_isBlank hblank] at h
  cases h

theorem isWordChar_of_isDigit (h : isDigit c = true) : Cursor.isWordChar c = true := by
  simp [Cursor.isWordChar, h]

/-! ## Lexemes -/

def symbols : List (Char × Token.Kind) :=
  [('(', .leftParen), (')', .rightParen), ('\x7b', .leftBrace), ('\x7d', .rightBrace),
    (';', .semicolon), (',', .comma), ('.', .dot), (':', .colon), ('?', .question)]

def operators : List (String × Token.Kind) :=
  [("++", .plusPlus), ("+=", .plusAssign), ("+", .plus), ("--", .minusMinus), ("-=", .minusAssign),
    ("-", .minus),
    ("*=", .starAssign), ("*", .star), ("/=", .slashAssign), ("/", .slash), ("%=", .percentAssign),
    ("%", .percent),
    ("!=", .bangEqual), ("!", .bang), ("==", .equal), ("=", .assign), ("<=", .lessEqual), ("<", .less),
    (">=", .greaterEqual), (">", .greater)]

/-- What there is to write. A string is any, with the quotes to put around it. -/
inductive Lexeme where
  | symbol (c : Char) (kind : Token.Kind) (h : (c, kind) ∈ symbols)
  | operator (op : String) (kind : Token.Kind) (h : (op, kind) ∈ operators)
  | keyword (word : String) (kind : Token.Kind) (h : (word, kind) ∈ Token.keywords)
  | name (c : Char) (cs : List Char) (hc : isLetter c = true ∨ c = '_')
      (hcs : (c :: cs).all Cursor.isWordChar) (h : Token.keyword? (String.ofList (c :: cs)) = none)
  | number (d : Char) (ds : List Char) (h : (d :: ds).all isDigit)
  | fraction (d : Char) (ds : List Char) (f : Char) (fs : List Char) (h : (d :: ds).all isDigit)
      (h' : (f :: fs).all isDigit)
  | string (q : Char) (hq : IsQuote q) (s : String)

namespace Lexeme

/-- A character between two quotes `q`. -/
def escape (q c : Char) : List Char := if c = q ∨ c = '\\' then ['\\', c] else [c]

def text : Lexeme → List Char
  | symbol c _ _ => [c]
  | operator op _ _ => op.toList
  | keyword word _ _ => word.toList
  | name c cs _ _ _ => c :: cs
  | number d ds _ => d :: ds
  | fraction d ds f fs _ _ => d :: ds ++ '.' :: f :: fs
  | string q _ s => q :: s.toList.flatMap (escape q) ++ [q]

def kind : Lexeme → Token.Kind
  | symbol _ kind _ => kind
  | operator _ kind _ => kind
  | keyword _ kind _ => kind
  | name .. => .identifier
  | number .. => .number
  | fraction .. => .number
  | string .. => .string

/-- A string stands for its characters, everything else for its text. -/
def value : Lexeme → String
  | string _ _ s => s
  | l => String.ofList l.text

end Lexeme

theorem Lexeme.kind_ne_eof (l : Lexeme) : l.kind ≠ .eof := by
  cases l with
  | symbol _ _ h => exact (show ∀ x ∈ symbols, x.2 ≠ .eof by decide) _ h
  | operator _ _ h => exact (show ∀ x ∈ operators, x.2 ≠ .eof by decide) _ h
  | keyword _ _ h => exact (show ∀ x ∈ Token.keywords, x.2 ≠ .eof by decide) _ h
  | _ => exact nofun

/-- The text ends here, or a blank comes. -/
def Fenced (cs : List Char) : Prop := ∀ c, cs.head? = some c → isBlank c = true

/-- Lexemes in a text, with blanks and comments before, between and after them. A blank comes behind
each. -/
inductive Renders : List Lexeme → List Char → Prop
  | nil {g} (hg : Gap g []) : Renders [] g
  | cons {l ls g cs} (hg : Gap g (l.text ++ cs)) (hcs : Fenced cs) (h : Renders ls cs) :
      Renders (l :: ls) (g ++ (l.text ++ cs))

/-! ## Reading a lexeme -/

theorem Fenced.takeWhile {p : Char → Bool} {w cs : List Char}
    (hp : ∀ c, isBlank c = true → p c = false) (hw : w.all p)
    (h : Fenced cs) : (w ++ cs).takeWhile p = w := by
  rw [List.takeWhile_append_of_pos (List.all_eq_true.1 hw)]
  cases cs with
  | nil => simp
  | cons c cs => simp [hp c (h c rfl)]

theorem isDigit_of_isBlank (c : Char) (h : isBlank c = true) : isDigit c = false := by
  refine Bool.eq_false_iff.2 fun hdigit => ?_
  rw [isBlank_of_isWordChar (isWordChar_of_isDigit hdigit)] at h
  cases h

namespace Cursor

theorem symbol?_of_isWordChar (h : isWordChar c = true) : symbol? c = none := by
  unfold symbol?
  split <;> first | rfl | exact absurd h (by decide)

theorem operator?_of_isWordChar (h : isWordChar c = true) (cs : List Char) :
    operator? (c :: cs) = none := by
  unfold operator?
  split
  case h_21 => rfl
  all_goals
    rename_i heq
    cases heq
    exact absurd h (by decide)

theorem numberLength_digits {w cs : List Char} (hw : w.all isDigit) (hcs : Fenced cs) :
    numberLength (w ++ cs) = w.length := by
  unfold numberLength
  simp only [hcs.takeWhile isDigit_of_isBlank hw, List.drop_left]
  split
  · exact absurd (hcs '.' rfl) (by decide)
  · rfl

theorem numberLength_fraction {w f cs : List Char} {d : Char} (hw : w.all isDigit)
    (hf : (d :: f).all isDigit) (hcs : Fenced cs) :
    numberLength (w ++ '.' :: d :: f ++ cs) = (w ++ '.' :: d :: f).length := by
  have hwhole : (w ++ '.' :: d :: f ++ cs).takeWhile isDigit = w := by
    rw [List.append_assoc, List.takeWhile_append_of_pos (List.all_eq_true.1 hw), List.cons_append,
      List.takeWhile_cons_of_neg (by decide), List.append_nil]
  have hdrop : (w ++ '.' :: d :: f ++ cs).drop w.length = '.' :: d :: (f ++ cs) := by simp
  have htail : (w ++ '.' :: d :: f ++ cs).drop (w.length + 1) = (d :: f) ++ cs := by
    rw [← List.tail_drop, hdrop]
    rfl
  have hd : isDigit d = true := List.all_eq_true.1 hf d List.mem_cons_self
  unfold numberLength
  simp only [hwhole, hdrop, htail, hd, if_true, hcs.takeWhile isDigit_of_isBlank hf,
    List.length_append, List.length_cons]
  omega

theorem closeString_escape {q : Char} (hq : IsQuote q) (s cs : List Char) (p : Position)
    (acc : List Char) :
    ∃ p', closeString q (s.flatMap (Lexeme.escape q) ++ q :: cs) p acc =
    (some (String.ofList (acc.reverse ++ s)), ⟨cs, p'⟩) := by
  have hslash : ('\\' == q) = false := by rcases hq with rfl | rfl <;> decide
  induction s generalizing p acc with
  | nil =>
    refine ⟨p.next q, ?_⟩
    rw [List.flatMap_nil, List.nil_append, closeString.eq_def]
    simp
  | cons c s ih =>
    rw [List.flatMap_cons, Lexeme.escape]
    split
    · rename_i hc
      obtain ⟨p', hp'⟩ := ih ((p.next '\\').next c) (c :: acc)
      have hplain : unescape c = c := by
        rcases hc with rfl | rfl
        · rcases hq with rfl | rfl <;> rfl
        · rfl
      refine ⟨p', ?_⟩
      rw [List.append_assoc, List.cons_append, closeString.eq_def]
      simp only [hslash, Bool.false_eq_true, if_false, beq_self_eq_true, if_true, List.cons_append,
        List.nil_append, hplain]
      simpa using hp'
    · rename_i hc
      rw [not_or] at hc
      obtain ⟨p', hp'⟩ := ih (p.next c) (c :: acc)
      refine ⟨p', ?_⟩
      rw [List.append_assoc, List.cons_append, closeString.eq_def]
      simpa [hc.1, hc.2] using hp'

variable {file : String}

/-- The next token is `l`, and `cs` is behind it. -/
def Reads (l : Lexeme) (cs : List Char) (r : Token × Cursor) : Prop :=
  r.1.kind = l.kind ∧ r.1.text = l.value ∧ r.2.rest = cs

theorem reads_take {l : Lexeme} {cs : List Char} {p : Position} {n : Nat} {kind : String → Token.Kind}
    (hn : n = l.text.length) (hkind : kind (String.ofList l.text) = l.kind)
    (hvalue : l.value = String.ofList l.text) :
    Reads l cs ((⟨l.text ++ cs, p⟩ : Cursor).take file n kind) := by
  subst hn
  simp [Reads, take, skip, hkind, hvalue]

theorem nextLexeme_word {l : Lexeme} {w cs : List Char} (p : Position) (htext : l.text = c :: w)
    (hvalue : l.value = String.ofList l.text) (hc : isLetter c = true ∨ c = '_')
    (hall : (c :: w).all isWordChar)
    (hkind : (Token.keyword? (String.ofList (c :: w))).getD .identifier = l.kind) (hcs : Fenced cs) :
    Reads l cs ((⟨l.text ++ cs, p⟩ : Cursor).nextLexeme file) := by
  have hword : isWordChar c = true := List.all_eq_true.1 hall c List.mem_cons_self
  have hdigit : isDigit c = false := by
    rcases hc with h | rfl
    · exact isDigit_of_isLetter h
    · decide
  have hquote : ¬ (c = '\x22' ∨ c = '\x27') := by
    rintro (rfl | rfl) <;> exact absurd hword (by decide)
  have htake := hcs.takeWhile (fun _ => isWordChar_of_isBlank) hall
  have hreads := @reads_take file l cs p ((c :: (w ++ cs)).takeWhile isWordChar).length
    (fun word => (Token.keyword? word).getD .identifier) (by rw [← List.cons_append, htake, htext])
    (by rw [htext, hkind]) hvalue
  rw [htext, List.cons_append] at hreads ⊢
  unfold nextLexeme
  simp only [symbol?_of_isWordChar hword, operator?_of_isWordChar hword]
  rw [if_neg (by simp [hdigit]), if_neg (by simpa using hquote), if_pos (by simpa using hc)]
  exact hreads

theorem nextLexeme_number {l : Lexeme} {d : Char} {w cs : List Char} (p : Position)
    (htext : l.text = d :: w)
    (hvalue : l.value = String.ofList l.text) (hd : isDigit d = true)
    (hlength : numberLength (l.text ++ cs) = l.text.length)
    (hkind : l.kind = .number) : Reads l cs ((⟨l.text ++ cs, p⟩ : Cursor).nextLexeme file) := by
  have hreads := @reads_take file l cs p _ (fun _ => .number) hlength hkind.symm hvalue
  rw [htext, List.cons_append] at hreads ⊢
  unfold nextLexeme
  simp only [symbol?_of_isWordChar (isWordChar_of_isDigit hd),
    operator?_of_isWordChar (isWordChar_of_isDigit hd), hd, if_true]
  exact hreads

theorem symbol_spelled {k : Token.Kind} (h : (c, k) ∈ symbols) :
    symbol? c = some k ∧ isBlank c = false ∧ c ≠ '/' :=
  (show ∀ x ∈ symbols, symbol? x.1 = some x.2 ∧ isBlank x.1 = false ∧ x.1 ≠ '/' by decide +kernel) _ h

theorem operator_spelled {op : String} {k : Token.Kind} (h : (op, k) ∈ operators) :
    operator? op.toList = some (op, k) ∧
    ∃ c w, op.toList = c :: w ∧ symbol? c = none ∧ isBlank c = false ∧ w.head? ≠ some '/' ∧
      w.head? ≠ some '*' := by
  have htable : ∀ x ∈ operators, operator? x.1.toList = some x ∧
    x.1.toList.head?.all (fun c => symbol? c == none && !isBlank c) ∧
      x.1.toList.tail.head? ≠ some '/' ∧ x.1.toList.tail.head? ≠ some '*' := by decide +kernel
  obtain ⟨hop, hhead, hline, hblock⟩ := htable _ h
  refine ⟨hop, ?_⟩
  simp only at hop hhead hline hblock
  generalize op.toList = cs at hop hhead hline hblock
  cases cs with
  | nil => cases hop
  | cons c w =>
    simp only [List.head?_cons, Option.all_some, Bool.and_eq_true, beq_iff_eq,
      Bool.not_eq_true'] at hhead
    exact ⟨c, w, rfl, hhead.1, hhead.2, hline, hblock⟩

theorem keyword_spelled {word : String} {k : Token.Kind} (h : (word, k) ∈ Token.keywords) :
    Token.keyword? word = some k ∧
    ∃ c w, word.toList = c :: w ∧ (isLetter c = true ∨ c = '_') ∧ (c :: w).all isWordChar := by
  have htable : ∀ x ∈ Token.keywords, Token.keyword? x.1 = some x.2 ∧ x.1.toList ≠ [] ∧
      x.1.toList.head?.all isLetter ∧ x.1.toList.all isWordChar := by decide +kernel
  obtain ⟨hkeyword, hne, hhead, hall⟩ := htable _ h
  refine ⟨hkeyword, ?_⟩
  obtain ⟨c, w, hw⟩ := List.exists_cons_of_ne_nil hne
  rw [hw] at hhead hall
  exact ⟨c, w, hw, .inl hhead, hall⟩

end Cursor

theorem Lexeme.fresh_of_word {l : Lexeme} {w : List Char} (htext : l.text = c :: w)
    (hc : Cursor.isWordChar c = true) (cs : List Char) : Fresh (l.text ++ cs) := by
  rw [htext]
  refine ⟨isBlank_of_isWordChar hc, ?_⟩
  rintro ⟨rfl, -⟩
  exact absurd hc (by decide)

/-- Neither a blank nor a comment begins with a lexeme. -/
theorem Lexeme.fresh (l : Lexeme) {cs : List Char} (hcs : Fenced cs) : Fresh (l.text ++ cs) := by
  cases l with
  | symbol c k h =>
    obtain ⟨-, hblank, hslash⟩ := Cursor.symbol_spelled h
    exact ⟨hblank, fun hc => hslash hc.1⟩
  | operator op k h =>
    obtain ⟨-, c, w, hw, -, hblank, hline, hblock⟩ := Cursor.operator_spelled h
    simp only [text, hw, Fresh, List.cons_append, List.head?_append, Option.or_eq_some_iff]
    refine ⟨hblank, ?_⟩
    rintro ⟨-, (h | ⟨-, h⟩) | (h | ⟨-, h⟩)⟩
    · exact hline h
    · exact absurd (hcs _ h) (by decide)
    · exact hblock h
    · exact absurd (hcs _ h) (by decide)
  | keyword word k h =>
    obtain ⟨-, c, w, hw, -, hall⟩ := Cursor.keyword_spelled h
    exact fresh_of_word (l := .keyword word k h) hw (List.all_eq_true.1 hall c List.mem_cons_self) cs
  | name c w hc hw => exact fresh_of_word rfl (List.all_eq_true.1 hw c List.mem_cons_self) cs
  | number d ds h =>
    exact fresh_of_word rfl (isWordChar_of_isDigit (List.all_eq_true.1 h d List.mem_cons_self)) cs
  | fraction d ds f fs h =>
    exact fresh_of_word rfl (isWordChar_of_isDigit (List.all_eq_true.1 h d List.mem_cons_self)) cs
  | string q hq s => rcases hq with rfl | rfl <;> exact ⟨by decide, fun h => absurd h.1 (by decide)⟩

namespace Cursor

variable {file : String}

theorem nextLexeme_reads (l : Lexeme) {cs : List Char} (hcs : Fenced cs) (p : Position) :
    Reads l cs ((⟨l.text ++ cs, p⟩ : Cursor).nextLexeme file) := by
  cases l with
  | symbol c k h =>
    have hreads := @reads_take file (.symbol c k h) cs p 1 (fun _ => k) rfl rfl rfl
    unfold nextLexeme
    simp only [Lexeme.text, List.cons_append, (symbol_spelled h).1]
    exact hreads
  | operator op k h =>
    obtain ⟨hop, c, w, hw, hsymbol, -⟩ := operator_spelled h
    have hop' : operator? (c :: (w ++ cs)) = some (op, k) := by
      rw [← hop, hw]
      refine operator?_congr fun x hx => ?_
      rw [List.head?_append, Option.or_eq_some_iff, or_iff_left]
      rintro ⟨-, hhead⟩
      have hx' : isBlank x = false := by
        simp only [List.mem_cons, List.not_mem_nil, or_false] at hx
        rcases hx with rfl | rfl | rfl <;> decide
      rw [hcs x hhead] at hx'
      cases hx'
    have hreads := @reads_take file (.operator op k h) cs p op.length (fun _ => k) rfl rfl rfl
    simp only [Lexeme.text, hw, List.cons_append] at hreads ⊢
    unfold nextLexeme
    simp only [hsymbol, hop']
    exact hreads
  | keyword word k h =>
    obtain ⟨hkind, c, w, hw, hc, hall⟩ := keyword_spelled h
    refine nextLexeme_word (l := .keyword word k h) p hw rfl hc hall ?_ hcs
    rw [← hw, String.ofList_toList, hkind]
    rfl
  | name c w hc hw h => exact nextLexeme_word p rfl rfl hc hw (by rw [h]; rfl) hcs
  | number d ds h =>
    exact nextLexeme_number p rfl rfl (List.all_eq_true.1 h d List.mem_cons_self)
      (numberLength_digits h hcs) rfl
  | fraction d ds f fs h h' =>
    exact nextLexeme_number p rfl rfl (List.all_eq_true.1 h d List.mem_cons_self)
      (numberLength_fraction h h' hcs) rfl
  | string q hq s =>
    obtain ⟨p', hclose⟩ := closeString_escape hq s.toList cs (p.next q) []
    have hsymbol : symbol? q = none := by rcases hq with rfl | rfl <;> rfl
    have hop : ∀ xs, operator? (q :: xs) = none := by rcases hq with rfl | rfl <;> exact fun _ => rfl
    have hdigit : isDigit q = false := by rcases hq with rfl | rfl <;> decide
    unfold nextLexeme
    simp only [Lexeme.text, List.cons_append, List.append_assoc, List.nil_append, hsymbol, hop,
      hdigit, hclose]
    rw [if_neg Bool.false_ne_true, if_pos (by simpa [IsQuote] using hq)]
    exact ⟨rfl, by simp [Lexeme.value], rfl⟩

/-! ## Reading a text -/

theorem skipTriviaFrom_line {b : List Char} (hb : '\n' ∉ b) (cs : List Char) (p : Position) :
    ∃ p', skipTriviaFrom .line (b ++ '\n' :: cs) p = skipTriviaFrom .blanks cs p' := by
  induction b generalizing p with
  | nil => exact ⟨p.next '\n', by simp [skipTriviaFrom]⟩
  | cons c b ih =>
    rw [List.mem_cons, not_or] at hb
    obtain ⟨p', hp'⟩ := ih hb.2 (p.next c)
    refine ⟨p', ?_⟩
    rw [List.cons_append, skipTriviaFrom, if_neg (by simpa using Ne.symm hb.1), hp']

theorem skipTriviaFrom_lastLine {b : List Char} (hb : '\n' ∉ b) (p : Position) :
    ∃ p', skipTriviaFrom .line b p = (none, ⟨[], p'⟩) := by
  induction b generalizing p with
  | nil => exact ⟨p, by simp [skipTriviaFrom]⟩
  | cons c b ih =>
    rw [List.mem_cons, not_or] at hb
    obtain ⟨p', hp'⟩ := ih hb.2 (p.next c)
    refine ⟨p', ?_⟩
    rw [skipTriviaFrom, if_neg (by simpa using Ne.symm hb.1), hp']

theorem skipTriviaFrom_body {b : List Char} (hb : ¬ ['*', '/'] <:+: b ++ ['*']) (cs : List Char)
    (start p : Position) :
    ∃ p', skipTriviaFrom (.block start) (b ++ '*' :: '/' :: cs) p = skipTriviaFrom .blanks cs p' := by
  induction b generalizing p with
  | nil => exact ⟨_, by rw [List.nil_append, skipTriviaFrom]⟩
  | cons c b ih =>
    rw [List.cons_append, List.infix_cons_iff, not_or] at hb
    obtain ⟨p', hp'⟩ := ih hb.2 (p.next c)
    refine ⟨p', ?_⟩
    rw [List.cons_append, skipTriviaFrom_block, hp']
    rintro ⟨rfl, hhead⟩
    refine hb.1 (List.cons_prefix_cons.2 ⟨rfl, ?_⟩)
    cases b with
    | nil => cases hhead
    | cons x b => exact List.cons_prefix_cons.2 ⟨by simpa using hhead.symm, List.nil_prefix⟩

theorem skipTriviaFrom_gap {g rest : List Char} (hg : Gap g rest) (hrest : Fresh rest) (p : Position) :
    ∃ p', skipTriviaFrom .blanks (g ++ rest) p = (none, ⟨rest, p'⟩) := by
  induction hg generalizing p with
  | nil => exact ⟨p, skipTriviaFrom_fresh hrest p⟩
  | @blank c g rest hc hg ih =>
    obtain ⟨p', hp'⟩ := ih hrest (p.next c)
    exact ⟨p', by rw [List.cons_append, skipTriviaFrom_blank hc, hp']⟩
  | @line b g rest hb hg ih =>
    obtain ⟨p1, hp1⟩ := skipTriviaFrom_line hb (g ++ rest) ((p.next '/').next '/')
    obtain ⟨p', hp'⟩ := ih hrest p1
    refine ⟨p', ?_⟩
    rw [List.cons_append, List.cons_append, skipTriviaFrom, List.append_assoc,
      List.cons_append, hp1, hp']
  | lastLine hb =>
    obtain ⟨p', hp'⟩ := skipTriviaFrom_lastLine hb ((p.next '/').next '/')
    exact ⟨p', by rw [List.append_nil, skipTriviaFrom, hp']⟩
  | @block b g rest hb hg ih =>
    obtain ⟨p1, hp1⟩ := skipTriviaFrom_body hb (g ++ rest) p ((p.next '/').next '*')
    obtain ⟨p', hp'⟩ := ih hrest p1
    refine ⟨p', ?_⟩
    rw [List.cons_append, List.cons_append, skipTriviaFrom, List.append_assoc, List.cons_append,
      List.cons_append, hp1, hp']

theorem next_of_gap {g rest : List Char} (hg : Gap g rest) (hrest : Fresh rest) (p : Position) :
    ∃ p', (⟨g ++ rest, p⟩ : Cursor).next file = (⟨rest, p'⟩ : Cursor).nextLexeme file := by
  obtain ⟨p', hp'⟩ := skipTriviaFrom_gap hg hrest p
  exact ⟨p', by rw [next, skipTrivia, hp']⟩

theorem Yields.of_renders {ls : List Lexeme} {cs : List Char} (h : Renders ls cs) {p : Position}
    {ts : List Token} (hts : (⟨cs, p⟩ : Cursor).Yields file ts) :
    ts.map (fun t => (t.kind, t.text)) = ls.map (fun l => (l.kind, l.value)) ++ [(.eof, "")] := by
  induction h generalizing p ts with
  | nil hg =>
    obtain ⟨p', hp'⟩ := @next_of_gap file _ _ hg trivial p
    rw [List.append_nil] at hp'
    cases hts with
    | last => rw [hp']; rfl
    | more hne => rw [hp'] at hne; exact absurd rfl hne
  | @cons l ls g cs hg hcs _ ih =>
    obtain ⟨p', hp'⟩ := @next_of_gap file _ _ hg (l.fresh hcs) p
    obtain ⟨hkind, hvalue, hrest⟩ := @nextLexeme_reads file l cs hcs p'
    rw [← hp'] at hkind hvalue hrest
    cases hts with
    | last heof => exact absurd (hkind.symm.trans heof) l.kind_ne_eof
    | more hne hts =>
      rw [List.map_cons, List.map_cons, List.cons_append, hkind, hvalue]
      generalize next file _ = r at hrest hts
      obtain ⟨t, cs', p''⟩ := r
      subst hrest
      rw [ih hts]

end Cursor

/-- **Reading undoes writing**: the tokens of a text in which lexemes stand, with blanks and
comments between them, are those lexemes, and the end. -/
theorem tokens_of_renders (file : String) {ls : List Lexeme} {source : String}
    (h : Renders ls source.toList) :
    (tokens file source).map (fun t => (t.kind, t.text)) = ls.map (fun l => (l.kind, l.value)) ++
    [(.eof, "")] :=
  Cursor.Yields.of_renders h (tokens_yields file source)

theorem tokens_of_renders_division :
    (tokens "" "x /= 1.5 // /* \n 'l\\'a' retourne").map (fun t => (t.kind, t.text)) =
      [(.identifier, "x"), (.slashAssign, "/="), (.number, "1.5"), (.string, "l'a"),
        (.retourner, "retourne"), (.eof, "")] := by
  have blank {g rest} (hg : Gap g rest) : Gap (' ' :: g) rest := .blank (by decide) hg
  have fenced cs : Fenced (' ' :: cs) := fun c hc => by cases hc; decide
  exact @tokens_of_renders ""
    [.name 'x' [] (by decide) (by decide) (by decide), .operator "/=" .slashAssign (by decide),
      .fraction '1' [] '5' [] (by decide) (by decide), .string '\x27' (.inr rfl) "l'a",
      .keyword "retourne" .retourner (by decide)]
    _ (.cons .nil (fenced _) (.cons (blank .nil) (fenced _) (.cons (blank .nil) (fenced _)
      (.cons (blank (.line (b := [' ', '/', '*', ' ']) (by decide) (blank .nil))) (fenced _)
        (.cons (blank .nil) nofun (.nil .nil))))))

end Parlance
