/-
  Text placed inside the markup of a page.
-/
import Parlance.Text.Pad

namespace Parlance.Manual

def reference? (c : Char) : Option String :=
  match c with
  | '\x00' => some "�"
  | '\x22' => some "&#34;"
  | '&' => some "&amp;"
  | '\x27' => some "&#39;"
  | '<' => some "&lt;"
  | '>' => some "&gt;"
  | _ => none

def escapedChar (c : Char) : String := (reference? c).getD c.toString

def escaped (s : String) : String := String.join (s.toList.map escapedChar)

/-- Text for the elements and attributes of a page. -/
def escapedText (s : String) : String :=
  String.join (s.toList.map fun c => if c == '+' then "&#43;" else escapedChar c)

def hexDigits (width n : Nat) : String := Text.padLeft width '0' (String.ofList (Nat.toDigits 16 n))

def isUnreserved (b : UInt8) : Bool :=
  let c := Char.ofNat b.toNat
  c.isAlphanum || c == '-' || c == '.' || c == '_' || c == '~'

def percentEncoded (s : String) : String :=
  String.join <| s.toUTF8.toList.map fun b =>
    if isUnreserved b then (Char.ofNat b.toNat).toString else "%" ++ hexDigits 2 b.toNat

/-- `c` inside a string of the search index. Angle brackets and ampersands are given by number, so
that no element ends inside the string. -/
def jsonChar (c : Char) : String :=
  match c with
  | '\x22' => "\\\x22"
  | '\\' => "\\\\"
  | '\x08' => "\\b"
  | '\x0c' => "\\f"
  | '\n' => "\\n"
  | '\r' => "\\r"
  | '\t' => "\\t"
  | _ =>
    if c.toNat < 0x20 || c == '<' || c == '>' || c == '&' || c.toNat == 0x2028 ||
        c.toNat == 0x2029 then
      "\\u" ++ hexDigits 4 c.toNat
    else c.toString

/-- Text as a string of the search index, safe inside a script element. -/
def jsonString (s : String) : String := "\x22" ++ String.join (s.toList.map jsonChar) ++ "\x22"

end Parlance.Manual
