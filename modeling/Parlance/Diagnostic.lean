/-
  What a compilation finds wrong with a source.
-/
import Parlance.Location
import Parlance.Text.Pad

namespace Parlance

/-- A token that the grammar asks for and the source does not have. -/
inductive Missing where
  | functionName | parameterName | variableName | operandName
  | functionParen | parametersParen | functionBody
  | variableSemicolon | blockBrace | printSemicolon | expressionSemicolon
  | ifParen | conditionParen | whileParen | forParen | forSemicolon | clausesParen
  | switchParen | switchValueParen | switchBody | caseColon | defaultColon | switchBrace
  | returnSemicolon | breakSemicolon | continueSemicolon
  | groupParen | conditionalColon | argumentsParen
  deriving Repr, DecidableEq

def Missing.message : Missing → String
  | functionName => "Nom de fonction attendu."
  | parameterName => "Nom de paramètre attendu."
  | variableName => "Nom de variable attendu."
  | operandName => "Nom de variable attendu après l'opérateur."
  | functionParen => "'(' attendu après le nom de la fonction."
  | parametersParen => "')' attendu après les paramètres."
  | functionBody => "'\x7b' attendu avant le corps de la fonction."
  | variableSemicolon => "';' attendu après la déclaration de variable."
  | blockBrace => "'\x7d' attendu après le bloc."
  | printSemicolon => "';' attendu après la valeur."
  | expressionSemicolon => "';' attendu après l'expression."
  | ifParen => "'(' attendu après 'si'."
  | conditionParen => "')' attendu après la condition."
  | whileParen => "'(' attendu après 'tantque'."
  | forParen => "'(' attendu après 'pour'."
  | forSemicolon => "';' attendu après la condition de la boucle."
  | clausesParen => "')' attendu après les clauses de 'pour'."
  | switchParen => "'(' attendu après 'selon'."
  | switchValueParen => "')' attendu après la valeur de 'selon'."
  | switchBody => "'\x7b' attendu avant les cas de 'selon'."
  | caseColon => "':' attendu après la valeur du cas."
  | defaultColon => "':' attendu après 'defaut'."
  | switchBrace => "'\x7d' attendu après les cas de 'selon'."
  | returnSemicolon => "';' attendu après la valeur de retour."
  | breakSemicolon => "';' attendu après 'quitter'."
  | continueSemicolon => "';' attendu après 'continuer'."
  | groupParen => "')' attendu après l'expression."
  | conditionalColon => "':' attendu dans l'expression conditionnelle."
  | argumentsParen => "')' attendu après les arguments."

/-- A bound of the instruction set that a source exceeds. -/
inductive Limit where
  | loopSize | jumpSize | constants | nesting | locals | upvalues | parameters | printed | arguments
  deriving Repr, DecidableEq

def Limit.message : Limit → String
  | loopSize => "Corps de boucle trop grand."
  | jumpSize => "Saut trop long."
  | constants => "Trop de constantes dans un seul bloc."
  | nesting => "Trop de boucles imbriquées."
  | locals => "Trop de variables locales dans la fonction."
  | upvalues => "Trop de variables capturées dans la fonction."
  | parameters => "Impossible d'avoir plus de 255 paramètres."
  | printed => "Trop de valeurs à afficher."
  | arguments => "Impossible d'avoir plus de 255 arguments."

/-- A sentence of the grammar that breaks a rule on names, placement or numbers. -/
inductive Misuse where
  | duplicateLocal | ownInitializer | returnOutside | breakOutside | continueOutside | badNumber
  deriving Repr, DecidableEq

def Misuse.message : Misuse → String
  | duplicateLocal => "Une variable avec ce nom existe déjà dans cette portée."
  | ownInitializer => "Impossible de lire une variable locale dans son propre initialiseur."
  | returnOutside => "Impossible de retourner depuis le code de niveau supérieur."
  | breakOutside => "'quitter' en dehors d'une boucle ou d'un 'selon'."
  | continueOutside => "'continuer' en dehors d'une boucle."
  | badNumber => "Nombre invalide."

/-- What the compiler complains of. -/
inductive Complaint where
  | lexical (message : String)
  | missing (m : Missing)
  | noExpression
  | badTarget
  | reserved (word : String)
  | classes
  | caseAfterDefault
  | secondDefault
  | noClause
  | misuse (m : Misuse)
  | limit (l : Limit)
  | other (message : String)
  deriving Repr, DecidableEq

def Complaint.message : Complaint → String
  | lexical message => message
  | missing m => m.message
  | noExpression => "Expression attendue."
  | badTarget => "Cible d'affectation invalide."
  | reserved word => "'" ++ word ++ "' est un mot réservé."
  | classes => "Les classes ne sont pas prises en charge."
  | caseAfterDefault => "'cas' interdit après 'defaut'."
  | secondDefault => "Un seul 'defaut' est permis."
  | noClause => "'cas' ou 'defaut' attendu."
  | misuse m => m.message
  | limit l => l.message
  | other message => message

/-- What a diagnostic points at. -/
inductive Place where
  | nowhere
  | atEnd
  | at (lexeme : String)
  | verbatim (text : String)
  deriving Repr, DecidableEq

def Place.text : Place → String
  | nowhere => ""
  | atEnd => " à la fin"
  | .at lexeme => " à '" ++ lexeme ++ "'"
  | verbatim text => text

/-- A complaint with its place. -/
structure Diagnostic where
  complaint : Complaint
  place : Place
  location : Location
  deriving Repr, DecidableEq

namespace Diagnostic

/-- The diagnostic in one line. -/
def message (d : Diagnostic) : String :=
  "[ligne " ++ toString d.location.line ++ "] Erreur" ++ d.place.text ++ " : " ++
    d.complaint.message

def isLexical (d : Diagnostic) : Bool :=
  match d.complaint with
  | .lexical _ => true
  | _ => false

/-- Marks below a stretch of a line. -/
def underline (l : Location) : String :=
  let start := (l.column - 1).toNat
  let width := match l.lastColumn with
    | some last => if l.column ≤ last then (last - l.column + 1).toNat else 1
    | none => 1
  String.ofList (List.replicate start ' ' ++ List.replicate width '^')

/-- The line, with marks below it. -/
def excerpt (d : Diagnostic) (source : String) : String :=
  if 0 < d.location.line then
    match (Text.lines source)[(d.location.line - 1).toNat]? with
    | some line => d.message ++ "\n" ++ line ++ "\n" ++ underline d.location
    | none => d.message
  else d.message

/-- Some diagnostic says that the text ended too early. -/
def isIncomplete (d : Diagnostic) : Bool :=
  d.place.text == Place.atEnd.text || d.complaint.message == "Chaîne non terminée." ||
    d.complaint.message == "Commentaire non terminé."

end Diagnostic

/-- What is wrong with a source. -/
abbrev Diagnostics := List Diagnostic

namespace Diagnostics

def message (ds : Diagnostics) : String := Text.join "\n" (ds.map Diagnostic.message)

def excerpt (ds : Diagnostics) (source : String) : String :=
  Text.join "\n" (ds.map (Diagnostic.excerpt · source))

/-- Whether more text might still make the source compile. -/
def isIncomplete (ds : Diagnostics) : Bool := ds.any Diagnostic.isIncomplete

def location (ds : Diagnostics) : Location :=
  match ds with
  | d :: _ => d.location
  | [] => {}

end Diagnostics

end Parlance
