/-
  Answers to an editor.
-/
import Parlance.Compiler
import Parlance.Editor.Range
import Parlance.Manual.Page

namespace Parlance.Editor

def serverName : String := "zia-ls"

def serverVersion : String := "0.1.0"

/-! ## Findings -/

/-- A diagnostic as an editor shows it. -/
structure Finding where
  range : Range
  source : String
  message : String
  deriving Repr, DecidableEq, Inhabited

def Finding.ofDiagnostic (d : Diagnostic) : Finding where
  range := .ofLocation d.location
  source := serverName ++ if d.isLexical then " (lexer)" else " (compilateur)"
  message := Text.trimBlanks ("Erreur" ++ d.place.text ++ " : " ++ d.complaint.message)

/-- What is wrong with a document. -/
def findings (uri text : String) : List Finding :=
  match (compile uri text).result with
  | .ok _ => []
  | .error ds => ds.map .ofDiagnostic

/-! ## Words -/

def hover? (word : String) : Option String :=
  match Native.builtinDoc? word with
  | some doc => some ("```zia\n" ++ doc.signature word ++ "\n```\n\n" ++ doc.text)
  | none => if Token.isKeyword word then some ("`" ++ word ++ "` : mot-clé") else none

inductive Offer where
  | native (name : String) (doc : Option Native.Doc)
  | keyword (word : String)
  deriving Repr, DecidableEq

namespace Offer

def label : Offer → String
  | native name _ => name
  | keyword word => word

def detail : Offer → String
  | native name (some doc) => doc.signature name
  | native _ none => "fonction native"
  | keyword _ => "mot-clé"

def text? : Offer → Option String
  | native _ doc => doc.map Native.Doc.text
  | keyword _ => none

end Offer

def offers : List Offer :=
  Manual.nativeNames.map (fun name => .native name (Native.builtinDoc? name)) ++
    (Token.usableKeywords.filter (! Manual.nativeNames.contains ·)).map .keyword

/-! ## Requests -/

inductive Change where
  | whole (text : String)
  | stretch
  deriving Repr, DecidableEq

/-- What an editor asks. -/
inductive Request where
  | greeting
  | ready
  | farewell
  | trace (level : String)
  | opened (uri text : String)
  | changed (uri : String) (changes : List Change)
  | closed (uri : String)
  | saved (uri : String)
  | hover (uri : String) (line character : Nat)
  | completion (uri : String)
  deriving Repr, DecidableEq

/-- What it is told. -/
inductive Reply where
  | nothing
  /-- The server's name, and that it takes whole documents, completes words and explains them. -/
  | presentation (name version : String)
  | trace (level : String)
  | published (uri : String) (found : List Finding)
  | explanation (text : String)
  | completions (offered : List Offer)
  deriving Repr, DecidableEq

inductive Refusal where
  | stretchChange
  deriving Repr, DecidableEq

def Refusal.message : Refusal → String
  | stretchChange => serverName ++ " only accepts full document changes"

/-- The open documents. `Server.answer` treats one request. -/
structure Server where
  documents : List (String × String) := []
  traceLevel : String := "off"
  deriving Repr, DecidableEq, Inhabited

namespace Server

def document? (s : Server) (uri : String) : Option String := s.documents.lookup uri

def close (s : Server) (uri : String) : Server :=
  { s with documents := s.documents.filter (·.1 != uri) }

/-- A document has a new text. -/
def update (s : Server) (uri text : String) : Reply × Server :=
  let s := s.close uri
  (.published uri (findings uri text), { s with documents := (uri, text) :: s.documents })

/-- Editors spell the middle level in two ways, of which one is kept. -/
def normalLevel (level : String) : String := if level == "messages" then "message" else level

/-- Treats one request. Of several changes the last one counts. -/
def answer (s : Server) : Request → Except Refusal (Reply × Server)
  | .greeting => .ok (.presentation serverName serverVersion, s)
  | .ready | .farewell | .saved _ => .ok (.nothing, s)
  | .trace level =>
    let level := normalLevel level
    .ok (.trace level, { s with traceLevel := level })
  | .opened uri text => .ok (s.update uri text)
  | .changed uri changes =>
    match changes.getLast? with
    | none => .ok (.nothing, s)
    | some (.whole text) => .ok (s.update uri text)
    | some .stretch => .error .stretchChange
  | .closed uri => .ok (.nothing, s.close uri)
  | .hover uri line character =>
    match (s.document? uri).bind fun text => hover? (wordAt text line character) with
    | some text => .ok (.explanation text, s)
    | none => .ok (.nothing, s)
  | .completion _ => .ok (.completions offers, s)

end Server

end Parlance.Editor
