/-
  Tables: open addressing with linear probing, keyed by interned strings.

  An erased key leaves a tombstone, so that the keys behind it are still found. Tombstones count as
  load; at three quarters the table doubles and they go.
-/
import Parlance.Value
import Parlance.Chunk
import Parlance.Hash

namespace Parlance

/-- An interned string as a key: its identity, its text and the hash of the text. -/
structure Symbol where
  ref : Ref
  text : String
  hash : UInt32
  deriving Repr, DecidableEq, Inhabited

/-- A slot of a table. -/
inductive Entry (α : Type) where
  | empty
  | tombstone
  | live (key : Symbol) (value : α)
  deriving Repr, Inhabited

/-- An open hash table. -/
structure Table (α : Type) where
  count : Nat := 0
  entries : Array (Entry α) := #[]
  deriving Repr, Inhabited

namespace Table

variable {α : Type}

def isLive : Entry α → Bool
  | .live .. => true
  | _ => false

def size (t : Table α) : Nat := t.entries.foldl (fun n e => if isLive e then n + 1 else n) 0

def capacity (t : Table α) : Nat := t.entries.size

/-- Where the search for a hash begins. -/
def home (entries : Array (Entry α)) (hash : UInt32) : Nat := hash.toNat % entries.size

/-- The slot of `key` from `index` on, or the slot where it would go: the first tombstone passed, or
else the empty slot that ends the search. -/
def probe (entries : Array (Entry α)) (key : Symbol) :
    (fuel index : Nat) → (grave : Option Nat) → Nat
  | 0, index, grave => grave.getD index
  | fuel + 1, index, grave =>
    let next := (index + 1) % entries.size
    match entries[index]? with
    | some (.live k _) =>
      if k.ref == key.ref then index else probe entries key fuel next grave
    | some .tombstone => probe entries key fuel next (grave.or (some index))
    | _ => grave.getD index

/-- The slot of `key`. A table is never full, so one round through it is enough. -/
def findSlot (entries : Array (Entry α)) (key : Symbol) : Nat :=
  probe entries key entries.size (home entries key.hash) none

/-- The value of a key. -/
def get? (t : Table α) (key : Symbol) : Option α :=
  if t.count == 0 then none
  else
    match t.entries[findSlot t.entries key]? with
    | some (.live _ value) => some value
    | _ => none

/-- Moves the entries to a new row. -/
def resize (t : Table α) (capacity : Nat) : Table α :=
  t.entries.foldl (fun u e =>
    match e with
    | .live key value =>
      { count := u.count + 1
        entries := u.entries.setIfInBounds (findSlot u.entries key) (.live key value) }
    | _ => u) ⟨0, Array.replicate capacity .empty⟩

/-- Makes room for a key. -/
def reserve (t : Table α) : Table α :=
  if 3 * t.capacity < 4 * (t.count + 1) then t.resize (growCapacity t.capacity) else t

/-- Stores `value` under `key`. The flag says whether the key is new. -/
def set (t : Table α) (key : Symbol) (value : α) : Bool × Table α :=
  let ⟨count, entries⟩ := t.reserve
  let slot := findSlot entries key
  let found := entries[slot]?
  let entries := entries.setIfInBounds slot (.live key value)
  match found with
  | some (.live ..) => (false, ⟨count, entries⟩)
  | some .tombstone => (true, ⟨count, entries⟩)
  | _ => (true, ⟨count + 1, entries⟩)

/-- Removes a key. -/
def erase (t : Table α) (key : Symbol) : Bool × Table α :=
  if t.count == 0 then (false, t)
  else
    let slot := findSlot t.entries key
    match t.entries[slot]? with
    | some (.live ..) => (true, { t with entries := t.entries.setIfInBounds slot .tombstone })
    | _ => (false, t)

def entriesList (t : Table α) : List (Symbol × α) :=
  t.entries.toList.filterMap fun
    | .live key value => some (key, value)
    | _ => none

def addAll (t source : Table α) : Table α :=
  source.entriesList.foldl (fun t e => (t.set e.1 e.2).2) t

def probeText? (entries : Array (Entry α)) (text : String) (hash : UInt32) :
    (fuel index : Nat) → Option Symbol
  | 0, _ => none
  | fuel + 1, index =>
    let next := (index + 1) % entries.size
    match entries[index]? with
    | some (.live k _) =>
      if k.hash == hash && k.text == text then some k
      else probeText? entries text hash fuel next
    | some .tombstone => probeText? entries text hash fuel next
    | _ => none

/-- A symbol by its text, which is how strings are interned. -/
def findText? (t : Table α) (text : String) (hash : UInt32) : Option Symbol :=
  if t.count == 0 then none
  else probeText? t.entries text hash t.entries.size (home t.entries hash)

def buryUnless (keep : Symbol → Bool) : Entry α → Entry α
  | .live key value => if keep key then .live key value else .tombstone
  | e => e

/-- Removes the keys not to be kept. -/
def removeUnless (t : Table α) (keep : Symbol → Bool) : Nat × Table α :=
  let removed := t.entries.foldl (fun n e =>
    match e with
    | .live key _ => if keep key then n else n + 1
    | _ => n) 0
  if removed == 0 then (0, t)
  else (removed, { t with entries := t.entries.map (buryUnless keep) })

end Table

end Parlance
