/-
  From text to tokens.

  Blanks and comments are skipped. A number is digits with an optional fraction; a word is letters,
  digits and underscores; a string stands between two equal quotes, and a backslash in it makes the
  next character plain, or one of `n t r 0`; an operator is as long as it can be.
-/
import Parlance.Token
import Parlance.Text.Blank
import Parlance.Text.Letter
import Parlance.Text.Digit

namespace Parlance

/-- The text ahead, and its place. -/
structure Cursor where
  rest : List Char
  position : Position := {}
  deriving Repr, DecidableEq, Inhabited

namespace Cursor

open Text

def ofSource (source : String) : Cursor := ⟨source.toList, {}⟩

def skip (c : Cursor) (n : Nat) : Cursor :=
  ⟨c.rest.drop n, c.position.after (c.rest.take n)⟩

/-! ## Blanks and comments -/

/-- What is being passed over: blanks, a comment up to the end of the line, or a comment up to its
closing mark. -/
inductive Trivia where
  | blanks
  | line
  | block (start : Position)

/-- Passes over blanks and comments. The first component is where a comment starts that does not
end. -/
def skipTriviaFrom : Trivia → List Char → Position → Option Position × Cursor
  | .blanks, '/' :: '/' :: cs, p => skipTriviaFrom .line cs ((p.next '/').next '/')
  | .blanks, '/' :: '*' :: cs, p => skipTriviaFrom (.block p) cs ((p.next '/').next '*')
  | .blanks, c :: cs, p =>
    if isBlank c then skipTriviaFrom .blanks cs (p.next c) else (none, ⟨c :: cs, p⟩)
  | .line, c :: cs, p => skipTriviaFrom (if c == '\n' then .blanks else .line) cs (p.next c)
  | .block _, '*' :: '/' :: cs, p => skipTriviaFrom .blanks cs ((p.next '*').next '/')
  | .block start, c :: cs, p => skipTriviaFrom (.block start) cs (p.next c)
  | .block start, [], p => (some start, ⟨[], p⟩)
  | _, [], p => (none, ⟨[], p⟩)

/-- Passes over blanks and comments. -/
def skipTrivia (c : Cursor) : Option Position × Cursor :=
  skipTriviaFrom .blanks c.rest c.position

/-! ## Literals and words -/

def unescape (c : Char) : Char :=
  if c == 'n' then '\n' else if c == 't' then '\t' else if c == 'r' then '\r'
  else if c == '0' then '\x00' else c

/-- Reads a string body up to its closing quote, the characters so far in `acc`, the last first. -/
def closeString (quote : Char) : List Char → Position → List Char → Option String × Cursor
  | [], p, _ => (none, ⟨[], p⟩)
  | c :: cs, p, acc =>
    if c == quote then (some (String.ofList acc.reverse), ⟨cs, p.next c⟩)
    else if c == '\\' then
      match cs with
      | [] => (none, ⟨[], p.next c⟩)
      | e :: es => closeString quote es ((p.next c).next e) (unescape e :: acc)
    else closeString quote cs (p.next c) (c :: acc)

def numberLength (cs : List Char) : Nat :=
  let whole := (cs.takeWhile isDigit).length
  match cs.drop whole with
  | '.' :: c :: _ =>
    if isDigit c then whole + 1 + ((cs.drop (whole + 1)).takeWhile isDigit).length else whole
  | _ => whole

def isWordChar (c : Char) : Bool := isLetter c || isDigit c || c == '_'

def symbol? (c : Char) : Option Token.Kind :=
  match c with
  | '(' => some .leftParen
  | ')' => some .rightParen
  | '\x7b' => some .leftBrace
  | '\x7d' => some .rightBrace
  | ';' => some .semicolon
  | ',' => some .comma
  | '.' => some .dot
  | ':' => some .colon
  | '?' => some .question
  | _ => none

def operator? (cs : List Char) : Option (String × Token.Kind) :=
  match cs with
  | '+' :: '+' :: _ => some ("++", .plusPlus)
  | '+' :: '=' :: _ => some ("+=", .plusAssign)
  | '+' :: _ => some ("+", .plus)
  | '-' :: '-' :: _ => some ("--", .minusMinus)
  | '-' :: '=' :: _ => some ("-=", .minusAssign)
  | '-' :: _ => some ("-", .minus)
  | '*' :: '=' :: _ => some ("*=", .starAssign)
  | '*' :: _ => some ("*", .star)
  | '/' :: '=' :: _ => some ("/=", .slashAssign)
  | '/' :: _ => some ("/", .slash)
  | '%' :: '=' :: _ => some ("%=", .percentAssign)
  | '%' :: _ => some ("%", .percent)
  | '!' :: '=' :: _ => some ("!=", .bangEqual)
  | '!' :: _ => some ("!", .bang)
  | '=' :: '=' :: _ => some ("==", .equal)
  | '=' :: _ => some ("=", .assign)
  | '<' :: '=' :: _ => some ("<=", .lessEqual)
  | '<' :: _ => some ("<", .less)
  | '>' :: '=' :: _ => some (">=", .greaterEqual)
  | '>' :: _ => some (">", .greater)
  | _ => none

/-! ## The next token -/

def unterminatedComment : String := "Commentaire non terminé."

def unterminatedString : String := "Chaîne non terminée."

def unexpectedCharacter : String := "Caractère inattendu."

def take (file : String) (c : Cursor) (n : Nat) (kind : String → Token.Kind) : Token × Cursor :=
  let text := String.ofList (c.rest.take n)
  let c' := c.skip n
  (⟨kind text, text, c.position.span c'.position file⟩, c')

/-- The token that begins here. -/
def nextLexeme (file : String) (c : Cursor) : Token × Cursor :=
  match c.rest with
  | [] => (⟨.eof, "", c.position.location file⟩, c)
  | x :: xs =>
    match symbol? x with
    | some kind => c.take file 1 fun _ => kind
    | none =>
      match operator? (x :: xs) with
      | some (op, kind) => c.take file op.length fun _ => kind
      | none =>
        if isDigit x then c.take file (numberLength (x :: xs)) fun _ => .number
        else if x == '\x22' || x == '\x27' then
          match closeString x xs (c.position.next x) [] with
          | (some text, c') =>
            let location :=
              if c'.position.line == c.position.line then c.position.span c'.position file
              else c.position.location file
            (⟨.string, text, location⟩, c')
          | (none, c') => (⟨.error, unterminatedString, c.position.location file⟩, c')
        else if isLetter x || x == '_' then
          c.take file ((x :: xs).takeWhile isWordChar).length fun word =>
            (Token.keyword? word).getD .identifier
        else (⟨.error, unexpectedCharacter, c.position.location file⟩, c.skip 1)

/-- The next token and the cursor behind it. At the end of the text it stays there and keeps
answering `eof`. -/
def next (file : String) (c : Cursor) : Token × Cursor :=
  match c.skipTrivia with
  | (some start, c') => (⟨.error, unterminatedComment, start.location file⟩, c')
  | (none, c') => c'.nextLexeme file

/-- Tokens up to the end of the text. -/
def tokensFor (file : String) : Nat → Cursor → Array Token → Array Token
  | 0, c, before => before.push ⟨.eof, "", c.position.location file⟩
  | fuel + 1, c, before =>
    let (t, c') := c.next file
    if t.kind == .eof then before.push t else tokensFor file fuel c' (before.push t)

end Cursor

/-- The tokens of `source`, `eof` last. Each one before it takes a character at least. -/
def tokens (file source : String) : List Token :=
  let c := Cursor.ofSource source
  (Cursor.tokensFor file (c.rest.length + 1) c #[]).toList

end Parlance
