/-
  The words of the command line.
-/
import Parlance.Tool.Repl

namespace Parlance

/-- What a command line asks for. -/
inductive Invocation where
  | run (path : String)
  | check (paths : List String)
  | disassemble (path : String)
  | build (path output : String)
  | repl
  deriving Repr, DecidableEq

/-- A command line that makes no sense. -/
inductive UsageError where
  | oneScript (command : String)
  | someScript (command : String)
  | tooMany
  | noValue (flag : String)
  | unknownFlag (flag : String)
  deriving Repr, DecidableEq

def UsageError.message : UsageError → String
  | oneScript command => command ++ " expects exactly one script"
  | someScript command => command ++ " expects at least one script"
  | tooMany => "too many arguments"
  | noValue flag => "flag needs an argument: " ++ flag
  | unknownFlag flag => "flag provided but not defined: " ++ flag

namespace Invocation

def parseBuild : (output : String) → (paths : List String) → List String → Except UsageError Invocation
  | output, [path], [] => .ok (.build path output)
  | _, _, [] => .error (.oneScript "build")
  | output, paths, [word] =>
    if word == "-o" || word == "--output" then .error (.noValue word)
    else parseBuild output (paths ++ [word]) []
  | output, paths, word :: value :: rest =>
    if word == "-o" || word == "--output" then parseBuild value paths rest
    else parseBuild output (paths ++ [word]) (value :: rest)

def parse : List String → Except UsageError Invocation
  | [] => .ok .repl
  | "repl" :: _ => .ok .repl
  | "run" :: paths | "r" :: paths =>
    match paths with
    | [path] => .ok (.run path)
    | _ => .error (.oneScript "run")
  | "check" :: paths => if paths.isEmpty then .error (.someScript "check") else .ok (.check paths)
  | "disasm" :: paths =>
    match paths with
    | [path] => .ok (.disassemble path)
    | _ => .error (.oneScript "disasm")
  | "build" :: words => parseBuild "" [] words
  | [path] => .ok (.run path)
  | _ => .error .tooMany

def perform {m : Type → Type} [Monad m] [Desk m] (flags : Flags) (lines : Nat) :
    Invocation → m Exit
  | run path => Command.run flags path
  | check paths => Command.check paths
  | disassemble path => Command.disassemble path
  | build path output => Command.build path output
  | repl => Command.repl flags lines

end Invocation

/-- A command line, taken apart. -/
structure Arguments where
  flags : Flags
  invocation : Invocation
  deriving Repr

namespace Arguments

def parseFrom (flags : Flags) : List String → Except UsageError Arguments
  | "--trace" :: rest => parseFrom { flags with trace := true } rest
  | "--print-code" :: rest => parseFrom { flags with print := true } rest
  | "--stress-gc" :: rest => parseFrom { flags with stress := true } rest
  | "--log-gc" :: rest => parseFrom { flags with log := true } rest
  | ["--config"] => .error (.noValue "--config")
  | ["-c"] => .error (.noValue "-c")
  | "--config" :: path :: rest | "-c" :: path :: rest => parseFrom { flags with config := path } rest
  | words =>
    match words with
    | word :: _ =>
      if word.startsWith "-" then .error (.unknownFlag word)
      else (Invocation.parse words).map (⟨flags, ·⟩)
    | [] => .ok ⟨flags, .repl⟩

/-- Flags first, then a command and its words. A single path runs the script, no path starts a
session. -/
def parse (words : List String) : Except UsageError Arguments := parseFrom {} words

end Arguments

end Parlance
