/-
  Tokens.
-/
import Parlance.Location

namespace Parlance

/-- Symbols, operators, literals, reserved words, and the two ends of reading: a lexical error and
the end of the text. -/
inductive Token.Kind where
  | leftParen | rightParen | leftBrace | rightBrace | comma | dot | minus | plus | semicolon
  | colon | question | slash | star | percent | bang | bangEqual | assign | equal | greater
  | greaterEqual | less | lessEqual | plusPlus | minusMinus | plusAssign | minusAssign
  | starAssign | slashAssign | percentAssign
  | identifier | string | number
  | et | ou | si | sinon | tantque | pour | selon | cas | defaut | quitter | continuer | fonction
  | retourner | var | vrai | faux | nul | afficher | classe | ceci | super
  | error | eof
  deriving Repr, DecidableEq, Inhabited

namespace Token.Kind

def names : List (Kind × String) := [
  (leftParen, "TokenLParen"), (rightParen, "TokenRParen"), (leftBrace, "TokenLCurlyBrace"),
  (rightBrace, "TokenRCurlyBrace"), (comma, "TokenComma"), (dot, "TokenDot"),
  (minus, "TokenMinus"), (plus, "TokenPlus"), (semicolon, "TokenSemiColon"),
  (colon, "TokenColon"), (question, "TokenQuestion"), (slash, "TokenDiv"), (star, "TokenMul"),
  (percent, "TokenMod"), (bang, "TokenBang"), (bangEqual, "TokenNEQ"), (assign, "TokenAssign"),
  (equal, "TokenEQ"), (greater, "TokenGT"), (greaterEqual, "TokenGTE"), (less, "TokenLT"),
  (lessEqual, "TokenLTE"), (plusPlus, "TokenPlusPlus"), (minusMinus, "TokenMinusMinus"),
  (plusAssign, "TokenPlusEquals"), (minusAssign, "TokenMinusEquals"),
  (starAssign, "TokenMulEquals"), (slashAssign, "TokenDivEquals"),
  (percentAssign, "TokenModEquals"), (identifier, "TokenIdent"), (string, "TokenString"),
  (number, "TokenNumber"), (et, "TokenEt"), (ou, "TokenOu"), (si, "TokenSi"),
  (sinon, "TokenSinon"), (tantque, "TokenTantque"), (pour, "TokenPour"), (selon, "TokenSelon"),
  (cas, "TokenCas"), (defaut, "TokenDefaut"), (quitter, "TokenQuitter"),
  (continuer, "TokenContinuer"), (fonction, "TokenFonction"), (retourner, "TokenRetourner"),
  (var, "TokenVar"), (vrai, "TokenVrai"), (faux, "TokenFaux"), (nul, "TokenNul"),
  (afficher, "TokenAfficher"), (classe, "TokenClasse"), (ceci, "TokenCeci"),
  (super, "TokenSuper"), (error, "TokenError"), (eof, "TokenEOF")]

/-- The name of a kind. -/
def name (k : Kind) : String := (names.lookup k).getD ""

def nameOfCode (n : Int) : String :=
  match (if 0 ≤ n then names[n.toNat]? else none) with
  | some (_, s) => s
  | none => "TokenType(" ++ toString n ++ ")"

end Token.Kind

/-- A kind, a text and a place. The text of an error token is its message. -/
structure Token where
  kind : Token.Kind
  text : String
  location : Location
  deriving Repr, DecidableEq, Inhabited

namespace Token

def display (t : Token) : String := t.kind.name ++ " " ++ t.text

/-- The reserved words. -/
def keywords : List (String × Kind) := [
  ("et", .et), ("ou", .ou), ("si", .si), ("sinon", .sinon), ("tantque", .tantque),
  ("pour", .pour), ("selon", .selon), ("cas", .cas), ("defaut", .defaut), ("quitter", .quitter),
  ("continuer", .continuer), ("fonction", .fonction), ("retourner", .retourner),
  ("retourne", .retourner), ("var", .var), ("vrai", .vrai), ("faux", .faux), ("nul", .nul),
  ("afficher", .afficher), ("classe", .classe), ("ceci", .ceci), ("super", .super)]

/-- The reserved words. `retourne` is a second spelling of `retourner`. -/
def keyword? (s : String) : Option Kind := keywords.lookup s

def isKeyword (s : String) : Bool := (keyword? s).isSome

/-- The words that mean something in a program, in the order in which they are offered. -/
def usableKeywords : List String := [
  "si", "sinon", "tantque", "pour", "selon", "cas", "defaut", "quitter", "continuer", "fonction",
  "retourner", "var", "vrai", "faux", "nul", "afficher", "et", "ou"]

end Token

end Parlance
