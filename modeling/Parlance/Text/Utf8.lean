/-
  Bytes as text.
-/

namespace Parlance.Text

def continuation? (b : UInt8) : Option Nat :=
  if 0x80 ≤ b && b ≤ 0xBF then some (b.toNat - 0x80) else none

/-- The character with a code, if it needs as many bytes as it was written in. -/
def codeOf? (least n length : Nat) : Option (Char × Nat) :=
  if least ≤ n && n.isValidChar then some (Char.ofNat n, length) else none

def leadingChar? : List UInt8 → Option (Char × Nat)
  | [] => none
  | b :: bs =>
    if b < 0x80 then some (Char.ofNat b.toNat, 1)
    else if b < 0xE0 then
      match bs with
      | c :: _ =>
        match continuation? c with
        | some y => if b < 0xC0 then none else codeOf? 0x80 ((b.toNat - 0xC0) * 64 + y) 2
        | none => none
      | [] => none
    else if b < 0xF0 then
      match bs with
      | c :: d :: _ =>
        match continuation? c, continuation? d with
        | some y, some z => codeOf? 0x800 (((b.toNat - 0xE0) * 64 + y) * 64 + z) 3
        | _, _ => none
      | _ => none
    else if b < 0xF8 then
      match bs with
      | c :: d :: e :: _ =>
        match continuation? c, continuation? d, continuation? e with
        | some x, some y, some z =>
          codeOf? 0x10000 ((((b.toNat - 0xF0) * 64 + x) * 64 + y) * 64 + z) 4
        | _, _, _ => none
      | _ => none
    else none

def replacement : Char := '�'

/-- The characters of some bytes, behind those read before; `skip` bytes belong to the last of
them. -/
def charsFrom : (skip : Nat) → (before : List Char) → List UInt8 → List Char
  | _, before, [] => before.reverse
  | skip + 1, before, _ :: bs => charsFrom skip before bs
  | 0, before, b :: bs =>
    match leadingChar? (b :: bs) with
    | some (c, n) => charsFrom (n - 1) (c :: before) bs
    | none => charsFrom 0 (replacement :: before) bs

/-- The text of bytes in UTF-8; a byte that belongs to no character stands for a replacement
character of its own. -/
def ofBytes (bytes : Array UInt8) : String := String.ofList (charsFrom 0 [] bytes.toList)

/-- The characters of some bytes, as `charsFrom` has them, if every byte belongs to one. -/
def charsFrom? : (skip : Nat) → (before : List Char) → List UInt8 → Option (List Char)
  | _, before, [] => some before.reverse
  | skip + 1, before, _ :: bs => charsFrom? skip before bs
  | 0, before, b :: bs =>
    match leadingChar? (b :: bs) with
    | some (c, n) => charsFrom? (n - 1) (c :: before) bs
    | none => none

def ofBytes? (bytes : List UInt8) : Option String := (charsFrom? 0 [] bytes).map String.ofList

end Parlance.Text
