/-
  Interactive sessions.
-/
import Parlance.Tool.Command

namespace Parlance

/-- The text ends too early. -/
def needsMore (source : String) : Bool :=
  match (compile "repl" source).result with
  | .ok _ => false
  | .error ds => ds.isIncomplete

/-! ## Completion -/

def isWordChar (c : Char) : Bool := c == '_' || c.isAlphanum || 127 < c.toNat

/-- The keywords and natives that the last word of a line can become. -/
def completions (line : String) : List String :=
  let word := (line.toList.reverse.takeWhile isWordChar).reverse
  let front := String.ofList (line.toList.take (line.length - word.length))
  if word.isEmpty then []
  else
    let known := Token.usableKeywords ++ Native.builtins.map (·.name)
    (known.filter fun k => word.isPrefixOf k.toList).map (front ++ ·)

/-! ## Commands of a session -/

structure Reply where
  text : String := ""
  ends : Bool := false

def listGlobals (m : Machine) : String :=
  String.join (m.globalNames.map fun name =>
    let shown := (m.global? name).bind m.heap.text?
    name ++ " = " ++ shown.getD "faux" ++ "\n")

def describeHeap (h : Heap) : String :=
  s!"{h.liveObjects} objets, {h.bytes} octets, prochaine collecte à {h.nextCollection}, " ++
    s!"{h.collections} collectes\n"

/-- The reply to a command. -/
def answer (m : Machine) (command : String) : Reply :=
  match Text.toLower command with
  | ":quitter" | ":q" => { ends := true }
  | ":globales" => { text := listGlobals m }
  | ":memoire" => { text := describeHeap m.heap }
  | _ => { text := "commande inconnue, essayez :quitter, :globales ou :memoire\n" }

/-! ## History -/

namespace History

def limit : Nat := 1000

def longestLine : Nat := 4095

def trim (entries : List String) : List String := entries.drop (entries.length - limit)

def add (entries : List String) (entry : String) : List String :=
  if entries.getLast? == some entry then entries else trim (entries ++ [entry])

/-- The entry on a line, whose bytes are given with the last one in front. `isWhole` says that the
mark of a line's end follows; a carriage return before that belongs to it. -/
def ofLine? (isWhole : Bool) (line : List UInt8) : Option String :=
  if longestLine < line.length then none
  else
    match isWhole, line with
    | true, 0x0D :: rest => Text.ofBytes? rest.reverse
    | _, all => Text.ofBytes? all.reverse

/-- The entries of a file, behind those read before, up to a line that is too long or no text.
`taken` holds the bytes of the line so far, the latest first. -/
def entriesFrom : (before : List String) → (taken : List UInt8) → List UInt8 → List String
  | before, taken, [] =>
    if taken.isEmpty then before.reverse
    else ((ofLine? false taken).toList ++ before).reverse
  | before, taken, b :: bs =>
    if b == 0x0A then
      match ofLine? true taken with
      | some entry => entriesFrom (entry :: before) [] bs
      | none => before.reverse
    else entriesFrom before (b :: taken) bs

def ofBytes (bytes : Array UInt8) : List String := trim (entriesFrom [] [] bytes.toList)

def toText (entries : List String) : String := String.join (entries.map (· ++ "\n"))

def fileName : String := ".zia_history"

end History

/-! ## Sessions -/

/-- A session: a machine, the lines of an unfinished source, and the history. -/
structure Repl where
  machine : Machine
  pending : String := ""
  history : List String := []

namespace Repl

variable {m : Type → Type} [Monad m] [Desk m]

def banner : String := "Zia (tapez :quitter pour sortir)\n"

def prompt (s : Repl) : String := if s.pending.isEmpty then "> " else "... "

/-- Runs an entry. -/
def evaluate (s : Repl) (source : String) : m Repl := do
  let (outcome, machine) ← Command.runSource s.machine "repl" source
  match outcome.message? with
  | some message => Desk.printError (message ++ "\n")
  | none => pure ()
  return { s with machine }

/-- Takes in a line. The flag says that the session ends. -/
def feed (s : Repl) (line : String) : m (Repl × Bool) := do
  let source := if s.pending.isEmpty then line else s.pending ++ "\n" ++ line
  let trimmed := Text.trimBlanks source
  let isCommand := trimmed.startsWith ":"
  if !isCommand && needsMore source then return ({ s with pending := source }, false)
  else
    let s := { s with pending := "" }
    if trimmed.isEmpty then return (s, false)
    else
      let s := { s with history := History.add s.history (source.replace "\n" " ") }
      if isCommand then
        let reply := answer s.machine trimmed
        Desk.print reply.text
        return (s, reply.ends)
      else return (← s.evaluate source, false)

/-- Reads entries, and answers them. -/
def converse : (lines : Nat) → Repl → m Repl
  | 0, s => return s
  | lines + 1, s => do
    Desk.print s.prompt
    match ← Desk.readLine with
    | none =>
      Desk.print "\n"
      return s
    | some line =>
      let (s, ends) ← s.feed line
      if ends then return s else converse lines s

end Repl

namespace Command

variable {m : Type → Type} [Monad m] [Desk m]

/-- A session of so many lines at most. The history is kept in the home directory. -/
def repl (flags : Flags) (lines : Nat) : m Exit := do
  match ← loadSettings flags "." with
  | .error exit => return exit
  | .ok settings =>
    let machine ← newMachine settings
    Desk.print Repl.banner
    let path := Path.join (← Desk.homeDirectory) History.fileName
    let history := match ← Desk.readFile path with
      | .ok bytes => History.ofBytes bytes
      | .error _ => []
    let s ← Repl.converse lines { machine, history }
    discard (Desk.writeFile path (History.toText s.history).toUTF8.data)
    return {}

end Command

end Parlance
