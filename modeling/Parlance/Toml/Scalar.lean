/-
  The scalars of TOML.
-/
import Parlance.Number.Reading
import Parlance.Number.Binary

namespace Parlance.Toml

abbrev Chars := List Char

def isDecimal (c : Char) : Bool := '0' ≤ c && c ≤ '9'

def isSpace (c : Char) : Bool := c == ' ' || c == '\t'

/-! ## Numbers -/

def digit? (base : Nat) (c : Char) : Option Nat :=
  (Number.hexValue? c).filter (· < base)

/-- Every underscore stands between digits, and the text ends in a digit; `ready` says that the
character before was a digit. -/
def underscoresOk : (ready : Bool) → Chars → Bool
  | ready, [] => ready
  | ready, c :: cs =>
    if c == '_' && !ready then false else underscoresOk (Number.hexValue? c).isSome cs

def hasLeadingZero : Chars → Bool
  | '0' :: c :: _ => !(c == 'b' || c == 'o' || c == 'x')
  | '-' :: '0' :: _ :: _ => true
  | '+' :: '0' :: _ :: _ => true
  | _ => false

def natural? (base : Nat) (cs : Chars) : Option Nat :=
  if cs.isEmpty then none
  else cs.foldlM (fun n c => (digit? base c).map (n * base + ·)) 0

def splitBase : Chars → Nat × Chars
  | '0' :: 'x' :: cs => (16, cs)
  | '0' :: 'o' :: cs => (8, cs)
  | '0' :: 'b' :: cs => (2, cs)
  | cs => (10, cs)

/-- A whole number, with underscores between digits. -/
def integer? (cs : Chars) : Option Int :=
  if !underscoresOk false cs || hasLeadingZero cs then none
  else
    let (minus, digits) := Number.splitSign cs
    let (base, digits) := splitBase digits
    match natural? base (digits.filter (· != '_')) with
    | none => none
    | some n =>
      let n : Int := if minus then -n else n
      if -Number.wordLimit ≤ n && n < Number.wordLimit then some n else none

def floatParts (cs : Chars) : List Chars :=
  (cs.splitBy fun a b => !(isMark a || isMark b)).filter fun part => !part.any isMark
where
  isMark (c : Char) : Bool := c == '.' || c == 'e' || c == 'E'

def pointsOk : Chars → Bool
  | [] => true
  | '.' :: c :: cs => isDecimal c && pointsOk (c :: cs)
  | ['.'] => false
  | _ :: cs => pointsOk cs

/-- A number with a point or an exponent, with underscores between digits. -/
def float? (cs : Chars) : Option Float :=
  let parts := floatParts cs
  if parts.all (underscoresOk false) && !hasLeadingZero (parts.headD []) && pointsOk cs then
    Number.readChars? (cs.filter (· != '_'))
  else none

/-! ## Moments -/

def twoDigits? : Chars → Option (Nat × Chars)
  | a :: b :: cs =>
    if isDecimal a && isDecimal b then some ((a.toNat - 48) * 10 + (b.toNat - 48), cs) else none
  | _ => none

def isLeapYear (y : Nat) : Bool := y % 4 == 0 && (y % 100 != 0 || y % 400 == 0)

def daysIn (year month : Nat) : Nat :=
  if month == 2 then (if isLeapYear year then 29 else 28)
  else if month == 4 || month == 6 || month == 9 || month == 11 then 30
  else 31

def skipDate? (cs : Chars) : Option Chars := do
  let (century, cs) ← twoDigits? cs
  let (year, cs) ← twoDigits? cs
  match cs with
  | '-' :: cs =>
    let (month, cs) ← twoDigits? cs
    match cs with
    | '-' :: cs =>
      let (day, cs) ← twoDigits? cs
      if 1 ≤ month && month ≤ 12 && 1 ≤ day && day ≤ daysIn (century * 100 + year) month then some cs
      else none
    | _ => none
  | _ => none

def skipSeconds? : Chars → Option Chars
  | ':' :: cs => do
    let (second, cs) ← twoDigits? cs
    if 59 < second then none
    else
      match cs with
      | '.' :: c :: cs => if isDecimal c then some (cs.dropWhile isDecimal) else none
      | cs => some cs
  | cs => some cs

def skipTime? (cs : Chars) : Option Chars := do
  let (hour, cs) ← twoDigits? cs
  match cs with
  | ':' :: cs =>
    let (minute, cs) ← twoDigits? cs
    if hour ≤ 23 && minute ≤ 59 then skipSeconds? cs else none
  | _ => none

def isZone (cs : Chars) : Bool :=
  match cs with
  | [] | ['Z'] | ['z'] => true
  | sign :: cs =>
    match twoDigits? cs with
    | some (hour, ':' :: cs) =>
      match twoDigits? cs with
      | some (minute, []) => (sign == '+' || sign == '-') && hour ≤ 24 && minute ≤ 60
      | _ => false
    | _ => false

def isMoment (cs : Chars) : Bool :=
  match skipDate? cs with
  | some [] => true
  | some (c :: rest) =>
    (c == 'T' || c == 't' || c == ' ') &&
      match skipTime? rest with
      | some zone => isZone zone
      | none => false
  | none => skipTime? cs == some []

/-! ## Numbers in a text -/

/-- A number, or a moment. -/
inductive Numeral where
  | integer (n : Int)
  | float (x : Float)
  | moment

def isFloatChar (c : Char) : Bool :=
  isDecimal c || c == '_' || c == '.' || c == '-' || c == '+' || c == 'e' || c == 'E'

def isMomentChar (c : Char) : Bool :=
  isDecimal c || ['-', ':', 'T', 't', ' ', '.', 'Z', 'z', '+'].contains c

def endsDigits (c : Char) : Bool := !(isDecimal c || c == '_')

def readDecimal? (front cs : Chars) : Option (Numeral × Chars) :=
  let (digits, rest) := cs.span (fun c => !endsDigits c)
  match rest with
  | c :: _ =>
    if c == '.' || c == 'e' || c == 'E' then
      let (more, rest) := rest.span isFloatChar
      (float? (front ++ digits ++ more)).map fun x => (.float x, rest)
    else (integer? (front ++ digits)).map fun n => (.integer n, rest)
  | [] => (integer? (front ++ digits)).map fun n => (.integer n, rest)

def readBased? (mark : Char) (cs : Chars) : Option (Numeral × Chars) :=
  let (base, _) := splitBase ['0', mark]
  let (digits, rest) := cs.span fun c => (digit? base c).isSome || c == '_'
  match digits with
  | c :: _ =>
    if c == '_' then none
    else (integer? ('0' :: mark :: digits)).map fun n => (.integer n, rest)
  | [] => none

def readDigits? (cs : Chars) : Option (Numeral × Chars) :=
  let (digits, rest) := cs.span isDecimal
  match digits, rest with
  | ['0'], 'x' :: rest => readBased? 'x' rest
  | ['0'], 'o' :: rest => readBased? 'o' rest
  | ['0'], 'b' :: rest => readBased? 'b' rest
  | _, c :: _ =>
    if c == '-' || c == ':' then
      let (moment, rest) := cs.span isMomentChar
      let trimmed := (moment.reverse.dropWhile (· == ' ')).reverse
      if isMoment trimmed then some (.moment, rest) else none
    else readDecimal? [] cs
  | _, [] => readDecimal? [] cs

/-- A number, or a moment. -/
def readNumber? : Chars → Option (Numeral × Chars)
  | 'i' :: 'n' :: 'f' :: cs => some (.float (Number.infinity false), cs)
  | 'n' :: 'a' :: 'n' :: cs => some (.float Number.notANumber, cs)
  | sign :: cs =>
    if sign == '+' || sign == '-' then
      match cs with
      | 'i' :: 'n' :: 'f' :: cs => some (.float (Number.infinity (sign == '-')), cs)
      | 'n' :: 'a' :: 'n' :: cs => some (.float Number.notANumber, cs)
      | '0' :: c :: _ =>
        if c == 'b' || c == 'o' || c == 'x' then none else readDecimal? [sign] cs
      | c :: _ => if isDecimal c then readDecimal? [sign] cs else none
      | [] => none
    else if isDecimal sign then readDigits? (sign :: cs)
    else none
  | [] => none

/-! ## Strings -/

def readHex? : (count : Nat) → (n : Nat) → Chars → Option (Nat × Chars)
  | 0, n, cs => some (n, cs)
  | count + 1, n, c :: cs =>
    match Number.hexValue? c with
    | some d => readHex? count (n * 16 + d) cs
    | none => none
  | _ + 1, _, [] => none

def readCode? (count : Nat) (cs : Chars) : Option (Char × Chars) :=
  match readHex? count 0 cs with
  | some (n, cs) => if n.isValidChar then some (Char.ofNat n, cs) else none
  | none => none

def readEscape? : Chars → Option (Char × Chars)
  | 'b' :: cs => some ('\x08', cs)
  | 't' :: cs => some ('\t', cs)
  | 'n' :: cs => some ('\n', cs)
  | 'f' :: cs => some ('\x0c', cs)
  | 'r' :: cs => some ('\r', cs)
  | 'e' :: cs => some ('\x1b', cs)
  | '\x22' :: cs => some ('\x22', cs)
  | '\\' :: cs => some ('\\', cs)
  | 'x' :: cs => readCode? 2 cs
  | 'u' :: cs => readCode? 4 cs
  | 'U' :: cs => readCode? 8 cs
  | _ => none

/-- How a string is quoted. -/
structure Quoting where
  quote : Char
  escapes : Bool
  /-- Three quotes on each side, and line breaks between them. -/
  long : Bool

def readQuoted? (q : Quoting) : (fuel : Nat) → (before : Chars) → Chars → Option (String × Chars)
  | 0, _, _ => none
  | _ + 1, _, [] => none
  | fuel + 1, before, c :: cs =>
    if c == q.quote then
      if q.long then
        let quotes := (c :: cs).takeWhile (· == q.quote)
        let rest := (c :: cs).drop quotes.length
        -- up to two quotes may stand before the three that close the string
        if quotes.length < 3 then readQuoted? q fuel (quotes ++ before) rest
        else if quotes.length ≤ 5 then
          some (String.ofList (quotes.drop 3 ++ before).reverse, rest)
        else none
      else some (String.ofList before.reverse, cs)
    else if c == '\n' && !q.long then none
    else if c == '\\' && q.escapes then
      match cs.dropWhile isSpace with
      | '\n' :: rest =>
        -- an escaped line break swallows the blanks behind it
        if q.long then readQuoted? q fuel before (rest.dropWhile fun c => isSpace c || c == '\n')
        else none
      | _ =>
        match readEscape? cs with
        | some (d, cs) => readQuoted? q fuel (d :: before) cs
        | none => none
    else readQuoted? q fuel (c :: before) cs

def readShort? (quote : Char) (cs : Chars) : Option (String × Chars) :=
  readQuoted? ⟨quote, quote == '\x22', false⟩ (cs.length + 1) [] cs

/-- A string, behind its first quote. A line break right behind three quotes is dropped. -/
def readText? (quote : Char) (cs : Chars) : Option (String × Chars) :=
  match cs with
  | a :: b :: rest =>
    if a == quote && b == quote then
      let rest := match rest with
        | '\n' :: rest => rest
        | rest => rest
      readQuoted? ⟨quote, quote == '\x22', true⟩ (rest.length + 1) [] rest
    else readShort? quote cs
  | _ => readShort? quote cs

end Parlance.Toml
