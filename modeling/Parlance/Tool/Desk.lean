/-
  What commands work with: files, a console and a log.
-/
import Parlance.Machine

namespace Parlance

/-- Why a file cannot be used. -/
inductive FileReason where
  | notFound
  | notDirectory
  | isDirectory
  | nameTooLong
  | badPath
  | other (text : String)
  deriving Repr, DecidableEq

def FileReason.text : FileReason → String
  | notFound => "no such file or directory"
  | notDirectory => "not a directory"
  | isDirectory => "is a directory"
  | nameTooLong => "file name too long"
  | badPath => "invalid argument"
  | other text => text

structure FileError where
  operation : String
  path : String
  reason : FileReason
  deriving Repr, DecidableEq

def FileError.message (e : FileError) : String :=
  e.operation ++ " " ++ e.path ++ ": " ++ e.reason.text

/-- What commands ask of a system. -/
class Desk (m : Type → Type) where
  readFile : String → m (Except FileError (Array UInt8))
  writeFile : String → Array UInt8 → m (Except FileError Unit)
  stat : String → m (Except FileError Unit)
  currentDirectory : m String
  homeDirectory : m String
  print : String → m Unit
  printError : String → m Unit
  /-- Some bytes up to the end of a line, `none` when there are no more. -/
  readLine : m (Option String)
  log : Array String → m Unit
  /-- Runs a machine to the end of its script, and passes on what it prints and notes. -/
  drive : Host → Machine → m (Outcome × Machine)

end Parlance
