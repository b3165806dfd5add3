/-
  Reading TOML.
-/
import Parlance.Toml.Scalar
import Parlance.Text.Letter
import Parlance.Text.Utf8

namespace Parlance.Toml

/-- A name in parts, which are nested tables. -/
abbrev Key := List String

/-- A value of TOML. -/
inductive Value where
  | bool (b : Bool)
  | integer (n : Int)
  | float (x : Float)
  | text (s : String)
  | moment
  | array (items : List Value)
  | table (entries : List (Key × Value))

/-- A line of a document: the head of a table, of an element of an array of tables, or an entry. -/
inductive Item where
  | table (key : Key)
  | element (key : Key)
  | entry (key : Key) (value : Value)

def skipSpaces (cs : Chars) : Chars := cs.dropWhile isSpace

/-- Skips blanks, line breaks and comments; `inside` says that a comment has begun. -/
def skipGaps : (inside : Bool) → Chars → Chars
  | _, [] => []
  | true, c :: cs => skipGaps (c != '\n') cs
  | false, c :: cs =>
    if c == '#' then skipGaps true cs
    else if isSpace c || c == '\n' then skipGaps false cs
    else c :: cs

def nextLine? (cs : Chars) : Option Chars :=
  match skipSpaces cs with
  | [] => some []
  | '\n' :: cs => some cs
  | '#' :: cs => some ((cs.dropWhile (· != '\n')).drop 1)
  | _ => none

/-! ## Keys -/

def isBareChar (c : Char) : Bool := c.isAlphanum || c == '_' || c == '-'

def readPart? (cs : Chars) : Option (String × Chars) :=
  match cs with
  | '\x22' :: rest => readShort? '\x22' rest
  | '\x27' :: rest => readShort? '\x27' rest
  | _ =>
    let (part, rest) := cs.span isBareChar
    if part.isEmpty then none else some (String.ofList part, rest)

/-- A key, part by part. -/
def readKey? (stop : Char) : (fuel : Nat) → (before : List String) → Chars → Option (Key × Chars)
  | 0, _, _ => none
  | fuel + 1, before, cs =>
    match readPart? (skipSpaces cs) with
    | none => none
    | some (part, cs) =>
      match skipSpaces cs with
      | c :: cs =>
        if c == '.' then readKey? stop fuel (part :: before) cs
        else if c == stop then some ((part :: before).reverse, cs)
        else none
      | [] => none

/-! ## Values -/

def readTruth? (cs : Chars) : Option (Bool × Chars) :=
  let (word, rest) := cs.span Text.isLetter
  match String.ofList word with
  | "true" => some (true, rest)
  | "false" => some (false, rest)
  | _ => none

def readScalar? (cs : Chars) : Option (Value × Chars) :=
  match cs with
  | '\x22' :: rest => (readText? '\x22' rest).map fun (s, rest) => (.text s, rest)
  | '\x27' :: rest => (readText? '\x27' rest).map fun (s, rest) => (.text s, rest)
  | _ =>
    match readNumber? cs with
    | some (.integer n, rest) => some (.integer n, rest)
    | some (.float x, rest) => some (.float x, rest)
    | some (.moment, rest) => some (.moment, rest)
    | none => (readTruth? cs).map fun (b, rest) => (.bool b, rest)

mutual

/-- A value up to its end. -/
def readValue? : (fuel : Nat) → Chars → Option (Value × Chars)
  | 0, _ => none
  | fuel + 1, cs =>
    match skipSpaces cs with
    | '[' :: cs => readArray? fuel [] cs
    | '\x7b' :: cs => readTable? fuel [] cs
    | cs => readScalar? cs

def readArray? : (fuel : Nat) → (before : List Value) → Chars → Option (Value × Chars)
  | 0, _, _ => none
  | fuel + 1, before, cs =>
    match skipGaps false cs with
    | ']' :: cs => some (.array before.reverse, cs)
    | cs =>
      match readValue? fuel cs with
      | none => none
      | some (v, cs) =>
        match skipGaps false cs with
        | ',' :: cs => readArray? fuel (v :: before) cs
        | ']' :: cs => some (.array (v :: before).reverse, cs)
        | _ => none

def readTable? : (fuel : Nat) → (before : List (Key × Value)) → Chars → Option (Value × Chars)
  | 0, _, _ => none
  | fuel + 1, before, cs =>
    match skipGaps false cs with
    | '\x7d' :: cs => some (.table before.reverse, cs)
    | cs =>
      match readKey? '=' fuel [] cs with
      | none => none
      | some (key, cs) =>
        match readValue? fuel cs with
        | none => none
        | some (v, cs) =>
          match skipGaps false cs with
          | ',' :: cs => readTable? fuel ((key, v) :: before) cs
          | '\x7d' :: cs => some (.table ((key, v) :: before).reverse, cs)
          | _ => none

end

/-! ## Documents -/

def readItem? (fuel : Nat) : Chars → Option (Item × Chars)
  | '[' :: '[' :: cs =>
    match readKey? ']' fuel [] cs with
    | some (key, ']' :: cs) => some (.element key, cs)
    | _ => none
  | '[' :: cs => (readKey? ']' fuel [] cs).map fun (key, cs) => (.table key, cs)
  | cs =>
    match readKey? '=' fuel [] cs with
    | none => none
    | some (key, cs) => (readValue? fuel cs).map fun (v, cs) => (.entry key v, cs)

def readItems? : (fuel : Nat) → (before : List Item) → Chars → Option (List Item)
  | 0, _, _ => none
  | fuel + 1, before, cs =>
    match skipGaps false cs with
    | [] => some before.reverse
    | cs =>
      match readItem? fuel cs with
      | none => none
      | some (item, cs) =>
        match nextLine? cs with
        | some cs => readItems? fuel (item :: before) cs
        | none => none

/-- The text with plain line breaks, `none` if it holds characters that no document has. -/
def plainLines? : (before : Chars) → Chars → Option Chars
  | before, [] => some before.reverse
  | before, '\r' :: '\n' :: cs => plainLines? ('\n' :: before) cs
  | before, c :: cs =>
    if c == '\t' || c == '\n' || (0x20 ≤ c.toNat && c.toNat != 0x7f) then
      plainLines? (c :: before) cs
    else none

def dropMark : List UInt8 → List UInt8
  | 0xFF :: 0xFE :: bs | 0xFE :: 0xFF :: bs | 0xEF :: 0xBB :: 0xBF :: bs => bs
  | bs => bs

/-- The lines of a document, which is text in UTF-8. Every round passes a character, or a value
inside another. -/
def items? (source : Array UInt8) : Option (List Item) :=
  match Text.charsFrom? 0 [] (dropMark source.toList) with
  | none => none
  | some cs =>
    match plainLines? [] cs with
    | none => none
    | some cs => readItems? (2 * cs.length + 2) [] cs

end Parlance.Toml
