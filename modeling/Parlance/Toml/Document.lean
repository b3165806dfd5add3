/-
  Documents of TOML: what the lines add up to.

  A table that only stood in a longer name is implied: it can be given a head of its own, once. A
  longer name that goes through an array puts a table in its place.
-/
import Parlance.Toml.Reader

namespace Parlance.Toml

/-- A value, a table, or an array of tables. -/
inductive Node where
  | value (v : Value)
  | table (entries : List (String × Node))
  | tables (elements : List (List (String × Node)))

abbrev Entries := List (String × Node)

/-- The tables so far, with the names that can still be filled in. -/
structure Document where
  root : Entries := []
  implied : List Key := []
  arrays : List Key := []
  context : Key := []

def lookup? (entries : Entries) (name : String) : Option Node :=
  (entries.find? (·.1 == name)).map (·.2)

def assign (entries : Entries) (name : String) (node : Node) : Entries :=
  if entries.any (·.1 == name) then entries.map fun e => if e.1 == name then (name, node) else e
  else entries ++ [(name, node)]

def changeAt? : Key → (Entries → Option Entries) → Entries → Option Entries
  | [], change, entries => change entries
  | name :: rest, change, entries =>
    match lookup? entries name with
    | some (.table inner) =>
      (changeAt? rest change inner).map fun inner => assign entries name (.table inner)
    | some (.tables (latest :: older)) =>
      (changeAt? rest change latest).map fun latest => assign entries name (.tables (latest :: older))
    | _ => none

/-- Notes a value of a table in braces under its name; `none` where the name goes through what is no
table. -/
def record? : Key → Node → Entries → Option Entries
  | [], _, _ => none
  | [name], node, entries => some (assign entries name node)
  | name :: rest, node, entries =>
    match lookup? entries name with
    | none => (record? rest node []).map fun inner => assign entries name (.table inner)
    | some (.table inner) =>
      (record? rest node inner).map fun inner => assign entries name (.table inner)
    | some _ => none

def nodeAt? : Key → Entries → Option Node
  | [], entries => some (.table entries)
  | [name], entries => lookup? entries name
  | name :: rest, entries =>
    match lookup? entries name with
    | some (.table inner) => nodeAt? rest inner
    | some (.tables (latest :: _)) => nodeAt? rest latest
    | _ => none

namespace Document

def imply (d : Document) (key : Key) : Document :=
  if d.implied.contains key then d else { d with implied := key :: d.implied }

def settle (d : Document) (key : Key) : Document :=
  { d with implied := d.implied.filter (· != key) }

def noteArray (d : Document) (key : Key) (isArray : Bool) : Document :=
  let others := d.arrays.filter (· != key)
  { d with arrays := if isArray then key :: others else others }

/-- The name by which it is noted whether an entry of the context is an array. An entry without a
name stands for the context. -/
def notedKey (d : Document) (name : String) : Key :=
  if name.isEmpty && !d.context.isEmpty then d.context else d.context ++ [name]

/-- Gives a name a value. A name that has one must be implied: then it keeps its table, but loses an
array. -/
def put? (d : Document) (table : Key) (name : String) (node : Node) : Option Document :=
  let key := table ++ [name]
  match nodeAt? key d.root, changeAt? table (fun es => some (assign es name node)) d.root with
  | _, none => none
  | none, some root => some { d with root }
  | some _, some root =>
    if !d.implied.contains key then none
    else if d.arrays.contains key then some { d.settle key with root }
    else some (d.settle key)

def addParents? (d : Document) : (done rest : Key) → Option Document
  | _, [] | _, [_] => some d
  | done, name :: rest =>
    let key := done ++ [name]
    let made := match nodeAt? key d.root with
      | some (.table _) | some (.tables _) => some d
      | some (.value _) => none
      | none =>
        (changeAt? done (fun es => some (assign es name (.table []))) d.root).map fun root =>
          { d with root }.imply key
    match made with
    | none => none
    | some d => addParents? d key rest

/-- The head of a table. -/
def openTable? (d : Document) (key : Key) : Option Document := do
  let d ← addParents? d [] key
  let d ← d.put? key.dropLast (key.getLastD "") (.table [])
  some { d with context := key }

/-- The head of an element. -/
def openElement? (d : Document) (key : Key) : Option Document := do
  let d ← addParents? d [] key
  let name := key.getLastD ""
  let root ← changeAt? key.dropLast (fun es =>
    match lookup? es name with
    | none => some (assign es name (.tables [[]]))
    | some (.tables elements) => some (assign es name (.tables ([] :: elements)))
    | some _ => none) d.root
  some { d with root, context := key }

def openFront? (d : Document) : Key → Option Document
  | [] | [_] => some d
  | name :: rest => do
    let key := d.context ++ [name]
    let d ← (d.imply key).openTable? key
    d.openFront? rest

def finish? (d : Document) (name : String) (node : Node) : Option Document := do
  let isArray := match node with
    | .value (.array _) => true
    | _ => false
  let d ← d.put? d.context name node
  some (d.noteArray (d.notedKey name) isArray)

mutual

/-- Enters what stands inside a value that is given to `name`, and makes its node. -/
def enterValue? (name : String) (inArray : Bool) : Value → Document → Option (Document × Node)
  | .array items, d => do
    let d ← enterItems? name items (d.noteArray (d.notedKey name) true)
    some (d, .value (.array items))
  | .table entries, d => do
    let outer := d.context
    let key := outer ++ [name]
    let d := d.imply key
    let d ← if inArray then d.openElement? key else d.openTable? key
    let (d, inner) ← enterEntries? key [] entries d
    some ({ d with context := outer }, .table inner)
  | v, d => some (d, .value v)

def enterItems? (name : String) : List Value → Document → Option Document
  | [], d => some d
  | v :: vs, d => do
    let (d, _) ← enterValue? name true v d
    enterItems? name vs d

def enterEntries? (table : Key) (before : Entries) :
    List (Key × Value) → Document → Option (Document × Entries)
  | [], d => some (d, before)
  | (key, v) :: rest, d => do
    let d ← openFront? d key
    let name := key.getLastD ""
    let (d, node) ← enterValue? name false v d
    let d ← finish? d name node
    enterEntries? table (← record? key node before) rest { d with context := table }

end

/-- Takes a line in. -/
def add? (d : Document) : Item → Option Document
  | .table key => do
    let d ← openTable? d key
    some (d.noteArray key false)
  | .element key => do
    let d ← openElement? d key
    some (d.noteArray key false)
  | .entry key v => do
    let outer := d.context
    let d ← openFront? d key
    let name := key.getLastD ""
    let (d, node) ← enterValue? name false v d
    let d ← finish? d name node
    some { d with context := outer }

def ofItems? (items : List Item) : Option Document := items.foldlM add? {}

end Document

/-- The tables of a document. -/
def parse? (source : Array UInt8) : Option Entries := do
  let d ← Document.ofItems? (← items? source)
  some d.root

end Parlance.Toml
