/-
  Declarations and statements.

  Loops and choices become jumps. The increment of `pour` stands before its body in the code; a
  choice compares a hidden local with each case in turn, and a matching body runs on into the next
  one.
-/
import Parlance.Compiler.Expression

namespace Parlance.Comp

/-! ## Recovery -/

def beginsSentence : Token.Kind → Bool
  | .classe | .fonction | .var | .pour | .si | .tantque | .afficher | .retourner | .selon
  | .quitter | .continuer => true
  | _ => false

/-- Passes over tokens until behind a semicolon or before a sentence; each round passes over one. -/
def skipFor : Nat → Compilation → Compilation
  | 0, s => s
  | fuel + 1, s =>
    if s.current.kind == .eof || s.previous.kind == .semicolon || beginsSentence s.current.kind then s
    else skipFor fuel s.advance

/-- Goes on at the next sentence. -/
def recover : Comp Unit :=
  modify fun s =>
    let s := { s with panicking := false }
    skipFor (s.rest.length + 2) s

def recoverIfPanicking : Comp Unit := do
  if (← get).panicking then recover

/-! ## Functions and variables -/

def countParameter : Comp Unit := do
  modifyContext fun c => { c with arity := c.arity + 1 }
  if maxParameters < (← get).context.arity then complainHere (.limit .parameters)

/-- The parameters of a function. -/
def parseParameters (self : Recur) : Comp Unit := do
  countParameter
  let index ← declareName .parameterName
  defineVariable index
  if ← accept .comma then self .parameters

/-- Writes where captures come from. -/
def emitCaptures : List Capture → Comp Unit
  | [] => pure ()
  | k :: ks => do
    emitByte (if k.isLocal then 1 else 0)
    emitByte k.index
    emitCaptures ks

/-- Does `x` in a function of its own. -/
def inFunction (name : String) (x : Comp Unit) : Comp (Proto × Array Capture) := do
  beginFunction name
  x
  endFunction

/-- The closure of a function that `x` compiles. -/
def makeFunction (name : String) (x : Comp Unit) : Comp Unit := do
  let f ← inFunction name x
  let index ← poolIndex (.function f.1)
  emitWith .closure index
  emitCaptures f.2.toList

/-- The parameters of a function, if it has any. -/
def parseNames (self : Recur) : Comp Unit := do
  if !(← check .rightParen) then self .parameters

/-- The parameters and the body of a function. -/
def parseInside (self : Recur) : Comp Unit := do
  beginScope
  expect .leftParen .functionParen
  parseNames self
  expect .rightParen .parametersParen
  expect .leftBrace .functionBody
  self .block

/-- The parameters and the body of a function. -/
def parseFunction (self : Recur) : Comp Unit := do
  makeFunction (← previous).text (parseInside self)

def parseFunctionDeclaration (self : Recur) : Comp Unit := do
  let index ← declareName .functionName
  markReady
  parseFunction self
  defineVariable index

/-- The value of a new variable. -/
def parseInitializer (self : Recur) : Comp Unit := do
  if ← accept .assign then self (.expression .assignment) else emit .pushNul

def parseVariableDeclaration (self : Recur) : Comp Unit := do
  let index ← declareName .variableName
  parseInitializer self
  expect .semicolon .variableSemicolon
  defineVariable index

/-! ## Simple statements -/

def finishPrint (count : Nat) : Comp Unit := do
  expect .semicolon .printSemicolon
  emitWith .print (UInt8.ofNat count)

def parsePrinted (self : Recur) (count : Nat) : Comp Unit :=
  parseRow self 255 .printed count (.printed (count + 1)) (finishPrint (count + 1))

/-- Behind `afficher`. -/
def parsePrint (self : Recur) : Comp Unit := do
  if ← check .semicolon then finishPrint 0 else self (.printed 0)

def parseExpressionStatement (self : Recur) : Comp Unit := do
  self (.expression .assignment)
  expect .semicolon .expressionSemicolon
  emit .pop

/-- Behind `retourner`. -/
def parseReturn (self : Recur) : Comp Unit := do
  complainIf (← get).context.name.isNone (.misuse .returnOutside)
  if ← accept .semicolon then emitReturn
  else
    self (.expression .assignment)
    expect .semicolon .returnSemicolon
    emit .return

/-- Behind `quitter`. -/
def parseBreak : Comp Unit := do
  match (← get).context.breakables with
  | [] =>
    complain (.misuse .breakOutside)
    expect .semicolon .breakSemicolon
  | b :: _ =>
    expect .semicolon .breakSemicolon
    discardLocals b.localCount
    let jump ← emitJump .jump
    modifyContext (·.addExit jump)

/-- Behind `continuer`. -/
def parseContinue : Comp Unit := do
  match (← get).context.breakables.find? (·.isLoop) with
  | none =>
    complain (.misuse .continueOutside)
    expect .semicolon .continueSemicolon
  | some b =>
    expect .semicolon .continueSemicolon
    discardLocals b.localCount
    emitLoop b.continueTarget

/-! ## Conditions and loops -/

/-- Aims a jump that was taken with its condition on the stack, if there is one, here, where the
condition is dropped. -/
def patchSkip : Option Nat → Comp Unit
  | some jump => do
    patchJump jump
    emit .pop
  | none => pure ()

/-- A condition in parentheses. The result is the jump that is taken if it does not hold. -/
def parseCondition (self : Recur) (opening : Missing) : Comp Nat := do
  expect .leftParen opening
  self (.expression .assignment)
  expect .rightParen .conditionParen
  let other ← emitJump .jumpIfFalse
  emit .pop
  return other

/-- The other way of a choice, if there is one, and where both meet. -/
def parseElse (self : Recur) (done : Nat) : Comp Unit := do
  if ← accept .sinon then self .statement
  patchJump done

/-- The end of the first way of a choice, and the other one. -/
def parseOther (self : Recur) (other : Nat) : Comp Unit := do
  let done ← emitJump .jump
  patchSkip (some other)
  parseElse self done

/-- Behind `si`. -/
def parseIf (self : Recur) : Comp Unit := do
  let other ← parseCondition self .ifParen
  self .statement
  parseOther self other

/-- The body of a loop that goes on at `next` and is left by `exit?`. -/
def parseLoop (self : Recur) (next : Nat) (exit? : Option Nat) : Comp Unit := do
  beginBreakable true next
  self .statement
  emitLoop next
  patchSkip exit?
  endBreakable

/-- Behind `tantque`. -/
def parseWhile (self : Recur) : Comp Unit := do
  let start ← codeSize
  let exit ← parseCondition self .whileParen
  parseLoop self start (some exit)

/-- What is done before a loop. -/
def parseForStart (self : Recur) : Comp Unit := do
  expect .leftParen .forParen
  if ← accept .semicolon then pure ()
  else if ← accept .var then parseVariableDeclaration self
  else parseExpressionStatement self

def parseForCondition (self : Recur) : Comp (Option Nat) := do
  if ← accept .semicolon then return none
  else
    self (.expression .assignment)
    expect .semicolon .forSemicolon
    let exit ← emitJump .jumpIfFalse
    emit .pop
    return some exit

/-- The increment of a loop, which its body stands behind. The result is where the loop goes on. -/
def parseForStep (self : Recur) (start : Nat) : Comp Nat := do
  let body ← emitJump .jump
  let increment ← codeSize
  self (.expression .assignment)
  emit .pop
  expect .rightParen .clausesParen
  emitLoop start
  patchJump body
  return increment

def parseForIncrement (self : Recur) (start : Nat) : Comp Nat := do
  if ← accept .rightParen then return start else parseForStep self start

/-- Behind `pour`. -/
def parseFor (self : Recur) : Comp Unit := do
  beginScope
  parseForStart self
  let start ← codeSize
  let exit? ← parseForCondition self
  let next ← parseForIncrement self start
  parseLoop self next exit?
  endScope

/-! ## Choices -/

/-- The beginning of a clause: what stands before it, the comparisons of the clauses before, its own
`test`, and the way in from the body before. -/
def openClause (c : Clauses) (before : Comp Unit) (test : Comp (Option Nat)) (sawDefault : Bool) :
    Comp Clauses := do
  before
  patchSkip c.skip?
  let skip? ← test
  patchJump? c.fall?
  beginScope
  return { c with skip?, sawDefault }

/-- The end of the body of a clause, and the clauses behind it. -/
def finishClause (self : Recur) (c : Clauses) : Comp Unit := do
  endScope
  let fall ← emitJump .jump
  self (.clauses { c with fall? := some fall })

/-- The body of a clause, and the clauses behind it. -/
def parseBody (self : Recur) (c : Clauses) : Comp Unit := do
  self .caseBody
  finishClause self c

/-- No case stands behind the default. -/
def enterCase (c : Clauses) : Comp Unit := complainIf c.sawDefault .caseAfterDefault

/-- There is one default. -/
def enterDefault (c : Clauses) : Comp Unit := do
  complainIf c.sawDefault .secondDefault
  expect .colon .defaultColon

/-- The value of a case, and the jump past its body. -/
def parseTest (self : Recur) (c : Clauses) : Comp (Option Nat) := do
  emitWith .getLocal c.slot
  self (.expression .assignment)
  expect .colon .caseColon
  emit .equal
  let skip ← emitJump .jumpIfFalse
  emit .pop
  return some skip

def parseCase (self : Recur) (c : Clauses) : Comp Unit := do
  parseBody self (← openClause c (enterCase c) (parseTest self c) c.sawDefault)

def parseDefault (self : Recur) (c : Clauses) : Comp Unit := do
  parseBody self (← openClause c (enterDefault c) (pure none) true)

/-- The clauses of a choice, one by one. -/
def parseClauses (self : Recur) (c : Clauses) : Comp Unit := do
  if (← check .rightBrace) || (← check .eof) then
    patchSkip c.skip?
    patchJump? c.fall?
  else if ← accept .cas then parseCase self c
  else if ← accept .defaut then parseDefault self c
  else
    complainHere .noClause
    advance
    self (.clauses c)

/-- Statements up to the next clause. -/
def parseCaseBody (self : Recur) : Comp Unit := do
  match (← get).current.kind with
  | .cas | .defaut | .rightBrace | .eof => pure ()
  | _ =>
    self .declaration
    self .caseBody

/-- The value of a choice, up to the brace before its clauses. -/
def parseChosen (self : Recur) : Comp Unit := do
  expect .leftParen .switchParen
  self (.expression .assignment)
  expect .rightParen .switchValueParen
  expect .leftBrace .switchBody

/-- The clauses of a choice whose value is the local declared last. -/
def parseChoices (self : Recur) : Comp Unit := do
  let slot := UInt8.ofNat ((← get).context.locals.size - 1)
  beginBreakable false 0
  self (.clauses { slot })
  endBreakable
  expect .rightBrace .switchBrace

/-- Behind `selon`. -/
def parseSwitch (self : Recur) : Comp Unit := do
  parseChosen self
  beginScope
  -- no name in a source has a blank in it
  addLocal " selon"
  markReady
  parseChoices self
  endScope

/-! ## Sentences -/

/-- A statement. -/
def parseStatement (self : Recur) : Comp Unit := do
  match (← get).current.kind with
  | .afficher => advance; parsePrint self
  | .si => advance; parseIf self
  | .tantque => advance; parseWhile self
  | .pour => advance; parseFor self
  | .selon => advance; parseSwitch self
  | .retourner => advance; parseReturn self
  | .quitter => advance; parseBreak
  | .continuer => advance; parseContinue
  | .classe => advance; complain .classes
  | .leftBrace =>
    advance
    beginScope
    self .block
    endScope
  | _ => parseExpressionStatement self

/-- A declaration, or a statement. -/
def parseSentence (self : Recur) : Comp Unit := do
  match (← get).current.kind with
  | .fonction => advance; parseFunctionDeclaration self
  | .var => advance; parseVariableDeclaration self
  | _ => self .statement

/-- A declaration or a statement. -/
def parseDeclaration (self : Recur) : Comp Unit := do
  parseSentence self
  recoverIfPanicking

/-- Declarations up to a brace. -/
def parseBlock (self : Recur) : Comp Unit := do
  if (← check .rightBrace) || (← check .eof) then expect .rightBrace .blockBrace
  else
    self .declaration
    self .block

/-- Declarations up to the end. -/
def parseProgram (self : Recur) : Comp Unit := do
  if ← accept .eof then pure ()
  else
    self .declaration
    self .program

end Parlance.Comp
