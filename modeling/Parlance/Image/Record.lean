/-
  Records read from CBOR.

  * `whole?`, `word?`, `float?`, `truth?`, `text?`, `byteString?`, `list?`: items as the content of
    fields of a type. The outer `none` is a refusal; the inner one is a null, which leaves the field
    as it is.
-/
import Parlance.Cbor.Reader

namespace Parlance.Image

/-- The item inside its tags. Dates, times and big numbers must have content of their kind, and a
big number stays as it is. -/
def plain? : Cbor → Option Cbor
  | .tag 0 item =>
    match item with
    | .text s => some (.text s)
    | .garbled => some .garbled
    | _ => none
  | .tag 1 item =>
    match item with
    | .unsigned n => some (.unsigned n)
    | .negative n => some (.negative n)
    | .float x => some (.float x)
    | _ => none
  | .tag 2 item =>
    match item with
    | .bytes bs => some (.tag 2 (.bytes bs))
    | _ => none
  | .tag 3 item =>
    match item with
    | .bytes bs => some (.tag 3 (.bytes bs))
    | _ => none
  | .tag _ item => plain? item
  | item => some item

/-- The item says nothing. -/
def isNull : Cbor → Bool
  | .simple n => n == 22 || n == 23
  | _ => false

/-- A whole number: below `2 ^ 64`, and at least `- 2 ^ 63`. Other simple values count as
numbers. -/
def whole? (item : Cbor) : Option (Option Int) :=
  let atLeast (n : Nat) : Option (Option Int) :=
    if n < Nat.pow 2 63 then some (some (-1 - (n : Int))) else none
  match plain? item with
  | some (.unsigned n) => some (some n)
  | some (.negative n) => atLeast n
  | some (.simple n) =>
    if isNull (.simple n) then some none
    else if n == 20 || n == 21 then none
    else some (some n)
  | some (.tag 2 (.bytes bs)) =>
    let n := Cbor.ofBigEndian bs
    if n < Nat.pow 2 64 then some (some n) else none
  | some (.tag 3 (.bytes bs)) => atLeast (Cbor.ofBigEndian bs)
  | _ => none

def word? (item : Cbor) : Option (Option Int) :=
  match whole? item with
  | some (some n) => if n < Number.wordLimit then some (some n) else none
  | other => other

def byte? (item : Cbor) : Option (Option Nat) :=
  match whole? item with
  | some (some n) => if 0 ≤ n && n < 256 then some (some n.toNat) else none
  | some none => some none
  | none => none

def float? (item : Cbor) : Option (Option Float) :=
  match plain? item with
  | some (.float x) => some (some x)
  | _ => (whole? item).map (·.map Number.ofInt)

def truth? (item : Cbor) : Option (Option Bool) :=
  match plain? item with
  | some (.simple n) =>
    if isNull (.simple n) then some none
    else if n == 20 then some (some false)
    else if n == 21 then some (some true)
    else none
  | _ => none

def text? (item : Cbor) : Option (Option String) :=
  match plain? item with
  | some (.text s) => some (some s)
  | some other => if isNull other then some none else none
  | none => none

def list? (item : Cbor) : Option (List Cbor) :=
  match plain? item with
  | some (.array items) => some items
  | some other => if isNull other then some [] else none
  | none => none

def map? (item : Cbor) : Option (List (Cbor × Cbor)) :=
  match plain? item with
  | some (.map entries) => some entries
  | some other => if isNull other then some [] else none
  | none => none

/-- Reads the items of a list. -/
def readAll? {α β : Type} (read : Cbor → Option (Option α)) (zero : β) (wrap : α → β) :
    (items : List Cbor) → (before : Array β) → Option (Array β)
  | [], before => some before
  | item :: items, before =>
    match read item with
    | none => none
    | some a => readAll? read zero wrap items (before.push ((a.map wrap).getD zero))

def byteString? (item : Cbor) : Option (Array UInt8) :=
  match plain? item with
  | some (.bytes bs) => some bs.toArray
  | some (.tag _ (.bytes bs)) => some bs.toArray
  | _ =>
    match list? item with
    | some items => readAll? byte? 0 UInt8.ofNat items #[]
    | none => none

/-! ## Fields -/

/-- The number that a key names, `none` inside for one that names no field. A key below every word
is refused. -/
def fieldNumber? : Cbor → Option (Option Nat)
  | .unsigned n => some (some n)
  | .negative n => if (n : Int) < Number.wordLimit then some none else none
  | .text s => some ((List.range 10).find? fun n => s == toString n)
  | _ => none

/-- The fields of a map in order, behind those found before. Keys are numbers or texts. -/
def entriesFrom? : (before : List (Nat × Cbor)) → List (Cbor × Cbor) → Option (List (Nat × Cbor))
  | before, [] => some before.reverse
  | before, (key, value) :: rest =>
    match fieldNumber? key with
    | some (some n) => entriesFrom? ((n, value) :: before) rest
    | some none => entriesFrom? before rest
    | none => none

/-- The fields of a map, which are named by a number or by its digits. -/
def entries? (entries : List (Cbor × Cbor)) : Option (List (Nat × Cbor)) := entriesFrom? [] entries

/-- The content of a field: the first one counts. -/
def fieldOf? (fields : List (Nat × Cbor)) (n : Nat) : Option Cbor :=
  (fields.find? (·.1 == n)).map (·.2)

/-- A field, or its default. -/
def fieldAs? {α : Type} (fields : List (Nat × Cbor)) (n : Nat) (read : Cbor → Option (Option α))
    (default : α) : Option α :=
  match fieldOf? fields n with
  | none => some default
  | some item => (read item).map (·.getD default)

end Parlance.Image
