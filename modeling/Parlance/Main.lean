/-
  The tool on the command line: the real files, console and clock behind `Desk`.
-/
import Parlance.Tool.Arguments

namespace Parlance.Console

def reasonOf : IO.Error → FileReason
  | .noFileOrDirectory .. => .notFound
  | .inappropriateType .. => .isDirectory
  | e => .other (toString e)

def attempt {α : Type} (operation path : String) (action : IO α) : IO (Except FileError α) := do
  try return .ok (← action)
  catch e => return .error ⟨operation, path, reasonOf e⟩

def slice : Nat := 100000

/-- Runs a machine slice by slice and shows what it prints in between. -/
partial def drive (host : Host) (m : Machine) : IO (Outcome × Machine) := do
  let clock := max m.clock ((← IO.monoNanosNow) / 1000)
  let (outcome, m) := { m with clock }.resume host slice
  (← IO.getStdout).putStr m.out
  (← IO.getStdout).flush
  for note in m.heap.journal do (← IO.getStderr).putStrLn note
  let m := { m with out := "", heap := { m.heap with journal := #[] } }
  match outcome with
  | .unfinished => drive host m
  | _ => return (outcome, m)

def lineOf (text : String) : Option String :=
  if text.isEmpty then none
  else
    let line := if text.endsWith "\n" then text.toList.dropLast else text.toList
    some (String.ofList (if line.getLast? == some '\r' then line.dropLast else line))

instance : Desk IO where
  readFile path := attempt "open" path (do return (← IO.FS.readBinFile path).data)
  writeFile path bytes := attempt "open" path (IO.FS.writeBinFile path ⟨bytes⟩)
  stat path := attempt "stat" path (do discard (IO.FS.Handle.mk path .read))
  currentDirectory := do return (← IO.currentDir).toString
  homeDirectory := do return (← IO.getEnv "HOME").getD ""
  print text := do
    (← IO.getStdout).putStr text
    (← IO.getStdout).flush
  printError text := do (← IO.getStderr).putStr text
  readLine := do return lineOf (← (← IO.getStdin).getLine)
  log notes := do for note in notes do (← IO.getStderr).putStrLn note
  drive host m := do
    let drawn ← IO.rand 1 4294967296
    let seed := m.seed ^^^ drawn.toUInt64
    drive host (if seed == 0 then m else { m with seed })

def endless : Nat := 1000000000000000000

def run (words : List String) : IO UInt32 := do
  let exit ← match Arguments.parse words with
    | .ok a => a.invocation.perform a.flags endless
    | .error e => pure { status := .usage, message := e.message }
  unless exit.message.isEmpty do (← IO.getStderr).putStrLn exit.message
  return exit.status.code.toUInt32

end Parlance.Console

def main (words : List String) : IO UInt32 := Parlance.Console.run words
