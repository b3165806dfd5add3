/-
  The compiler: from tokens to a script in one pass.

  Between two rounds of the parser a token is passed over, or the goal steps down a ladder of at
  most four rungs, so eight rounds for each token are more than it takes.
-/
import Parlance.Compiler.Statement
import Parlance.Token.Lexer

namespace Parlance

/-- One round of the parser. -/
def Comp.round (self : Recur) : Goal → Comp Unit
  | .program => parseProgram self
  | .declaration => parseDeclaration self
  | .statement => parseStatement self
  | .block => parseBlock self
  | .expression p => parseExpression self p
  | .operators p canAssign => parseOperators self p canAssign
  | .printed count => parsePrinted self count
  | .arguments count => parseArguments self count
  | .parameters => parseParameters self
  | .clauses c => parseClauses self c
  | .caseBody => parseCaseBody self

/-- The parser, with rounds to go. -/
def Comp.parse : Nat → Recur
  | 0, _ => pure ()
  | fuel + 1, goal => Comp.round (Comp.parse fuel) goal

/-- What a compilation came to. The script is of use where there are no diagnostics. -/
structure Compiled where
  script : Proto
  diagnostics : Diagnostics
  /-- The steps that lay the script out in memory. They are taken for a refused source too. -/
  builds : List Build

def Compiled.ofRun (r : Proto × Compilation) : Compiled :=
  ⟨r.1, r.2.diagnostics.toList, r.2.builds.toList⟩

/-- Before the first token of `ts`. -/
def Compilation.start (ts : List Token) : Compilation := { rest := ts, builds := #[.enter none] }

/-- A whole script. -/
def Comp.script (self : Recur) : Comp Proto := do
  advance
  self .program
  finishFunction

def compileTokens (ts : List Token) : Compiled :=
  .ofRun ((Comp.script (Comp.parse (8 * (ts.length + 2)))).run (.start ts))

/-- Compiles a source text. -/
def compile (file source : String) : Compiled := compileTokens (tokens file source)

/-- The script, or what is wrong. -/
def Compiled.result (c : Compiled) : Except Diagnostics Proto :=
  if c.diagnostics.isEmpty then .ok c.script else .error c.diagnostics

end Parlance
