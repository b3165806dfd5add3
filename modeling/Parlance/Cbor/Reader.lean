/-
  Reading CBOR.

  Items nest to a bounded depth and have a bounded number of parts. Lengths need not be the
  shortest, and strings, arrays and maps may be written in pieces until a break.
-/
import Parlance.Cbor

namespace Parlance.Cbor

/-- How deep arrays and maps may nest. -/
def maxDepth : Nat := 32

/-- How long arrays and maps may be. -/
def maxItems : Nat := 131072

/-- What an item begins with. -/
structure Head where
  major : Nat
  info : Nat
  value : Nat
  deriving Repr, DecidableEq

/-- The mark of an item that goes on until a break. -/
def untilBreak : Nat := 31

def ofBigEndian (bs : List UInt8) : Nat := bs.foldl (fun n b => n * 256 + b.toNat) 0

/-- The first `n` bytes, and the rest. -/
def takeBytes : (n : Nat) → (taken bs : List UInt8) → Option (List UInt8 × List UInt8)
  | 0, taken, bs => some (taken.reverse, bs)
  | n + 1, taken, b :: bs => takeBytes n (b :: taken) bs
  | _ + 1, _, [] => none

/-- Reads a head. Only strings, arrays and maps may go on until a break, and simple values below 32
have no long form. -/
def readHead : List UInt8 → Option (Head × List UInt8)
  | [] => none
  | b :: bs =>
    let major := b.toNat / 32
    let info := b.toNat % 32
    if info < 24 then some (⟨major, info, info⟩, bs)
    else if info < 28 then
      match takeBytes (Nat.pow 2 (info - 24)) [] bs with
      | none => none
      | some (digits, bs) =>
        let value := ofBigEndian digits
        if major == 7 && info == 24 && value < 32 then none
        else some (⟨major, info, value⟩, bs)
    else if info == untilBreak && 2 ≤ major && major ≤ 5 then some (⟨major, info, info⟩, bs)
    else none

/-- The pieces of a string until the break, behind those read before. -/
def readPieces (major : Nat) :
    (fuel : Nat) → (before : List (List UInt8)) → List UInt8 →
      Option (List (List UInt8) × List UInt8)
  | 0, _, _ => none
  | _ + 1, _, [] => none
  | fuel + 1, before, b :: bs =>
    if b == 0xff then some (before.reverse, bs)
    else
      match readHead (b :: bs) with
      | none => none
      | some (h, bs) =>
        if h.major == major && h.info != untilBreak then
          match takeBytes h.value [] bs with
          | none => none
          | some (piece, bs) => readPieces major fuel (piece :: before) bs
        else none

/-- A text from its pieces. -/
def textOf (pieces : List (List UInt8)) : Cbor :=
  match pieces.mapM fun p => String.fromUTF8? ⟨p.toArray⟩ with
  | some ss => .text (String.join ss)
  | none => .garbled

def readString (h : Head) (fuel : Nat) (bs : List UInt8) :
    Option (List (List UInt8) × List UInt8) :=
  if h.info == untilBreak then readPieces h.major fuel [] bs
  else
    match takeBytes h.value [] bs with
    | none => none
    | some (piece, bs) => some ([piece], bs)

def pairs : (before : List (Cbor × Cbor)) → List Cbor → List (Cbor × Cbor)
  | before, key :: value :: rest => pairs ((key, value) :: before) rest
  | before, _ => before.reverse

/-- The item of a head of the last kind. -/
def simpleOrFloat (h : Head) : Cbor :=
  if h.info == 25 then .float (half.value h.value)
  else if h.info == 26 then .float (single.value h.value)
  else if h.info == 27 then .float (Float.ofBits (UInt64.ofNat h.value))
  else .simple h.value

/-- An array or a map of the items read. The break may not part a key from its value. -/
def collection? (major : Nat) (items : List Cbor) : Option Cbor :=
  if major == 4 then some (.array items)
  else if items.length % 2 == 0 then some (.map (pairs [] items))
  else none

mutual

/-- Reads an item, `depth` levels deep. -/
def readItem : (fuel depth : Nat) → List UInt8 → Option (Cbor × List UInt8)
  | 0, _, _ => none
  | fuel + 1, depth, bs =>
    match readHead bs with
    | none => none
    | some (h, bs) =>
      match h.major with
      | 0 => some (.unsigned h.value, bs)
      | 1 => some (.negative h.value, bs)
      | 2 => (readString h fuel bs).map fun (pieces, bs) => (.bytes pieces.flatten, bs)
      | 3 => (readString h fuel bs).map fun (pieces, bs) => (textOf pieces, bs)
      | 6 =>
        -- only a tag on a tag counts as a level
        let depth := match bs with
          | b :: _ => if b.toNat / 32 == 6 then depth + 1 else depth
          | [] => depth
        if maxDepth < depth then none
        else (readItem fuel depth bs).map fun (item, bs) => (.tag h.value item, bs)
      | 7 => some (simpleOrFloat h, bs)
      | major =>
        if maxDepth ≤ depth then none
        else
          let parts := if major == 4 then 1 else 2
          if h.info == untilBreak then
            match readUntilBreak fuel (depth + 1) (parts * maxItems) [] bs with
            | none => none
            | some (items, bs) => (collection? major items).map fun c => (c, bs)
          else if maxItems < h.value then none
          else
            match readItems fuel (depth + 1) (parts * h.value) [] bs with
            | none => none
            | some (items, bs) => (collection? major items).map fun c => (c, bs)

/-- Reads `count` items. -/
def readItems : (fuel depth count : Nat) → (before : List Cbor) → List UInt8 →
    Option (List Cbor × List UInt8)
  | _, _, 0, before, bs => some (before.reverse, bs)
  | 0, _, _ + 1, _, _ => none
  | fuel + 1, depth, count + 1, before, bs =>
    match readItem fuel depth bs with
    | none => none
    | some (item, bs) => readItems fuel depth count (item :: before) bs

def readUntilBreak : (fuel depth room : Nat) → (before : List Cbor) → List UInt8 →
    Option (List Cbor × List UInt8)
  | 0, _, _, _, _ => none
  | fuel + 1, depth, room, before, bs =>
    match bs with
    | 0xff :: bs => some (before.reverse, bs)
    | bs =>
      match readItem fuel depth bs with
      | none => none
      | some (item, bs) =>
        match room with
        | 0 => none
        | room + 1 => readUntilBreak fuel depth room (item :: before) bs

end

/-- The item that the bytes are. Every item takes a byte at least, so the rounds are enough. -/
def decode? (bs : List UInt8) : Option Cbor :=
  match readItem (3 * bs.length + 3) 0 bs with
  | some (item, []) => some item
  | _ => none

end Parlance.Cbor
