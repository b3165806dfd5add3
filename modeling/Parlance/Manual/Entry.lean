/-
  Entries of the manual.
-/
import Parlance.Manual.Markup
import Parlance.Native.Doc
import Parlance.Text.Blank
import Parlance.Text.Case
import Parlance.Token

namespace Parlance.Manual

/-- What a manual says of a name. -/
structure Entry where
  id : String
  name : String
  signature : String
  summary : String := ""
  description : String := ""
  parameters : List (String × String) := []
  returns : String := ""
  deriving Repr, DecidableEq, Inhabited

def slug (s : String) : String :=
  Text.toLower ((Text.trimBlanks s).map fun c => if c == ' ' then '-' else c)

def firstSentence : List Char → List Char
  | [] => []
  | '.' :: ' ' :: _ => ['.']
  | c :: rest => c :: firstSentence rest

def summary (description : String) : String := String.ofList (firstSentence description.toList)

def span (style s : String) : String :=
  "<span class=\x22" ++ style ++ "\x22>" ++ escaped s ++ "</span>"

def signature (name : String) (parameters : List String) (returns : String) : String :=
  span "kwd" "fonction" ++ " " ++ span "fn" name ++ span "punct" "(" ++
    Text.join (span "punct" ", ") (parameters.map (span "arg")) ++ span "punct" ")" ++
    if returns.isEmpty then "" else " " ++ span "punct" "->" ++ " " ++ span "ret" returns

namespace Entry

/-- The entry of a function, whether or not it has a description. -/
def ofDoc (name : String) : Option Native.Doc → Entry
  | none => { id := slug name, name, signature := Manual.signature name [] "" }
  | some d => {
    id := slug name
    name
    signature := Manual.signature name (d.parameters.map (·.1)) d.returns
    summary := Manual.summary d.description
    description := d.description
    parameters := d.parameters
    returns := d.returns }

def keywordMeanings : List (String × String) := [
  ("si", "Exécute un bloc si la condition est vraie."),
  ("sinon", "Branche exécutée quand la condition du si est fausse."),
  ("tantque", "Répète un bloc tant que la condition est vraie."),
  ("pour", "Boucle avec initialisation, condition et incrément."),
  ("selon", "Compare une valeur à une suite de cas."),
  ("cas", "Un cas d'un selon. L'exécution continue dans le cas suivant sans quitter."),
  ("defaut", "Cas d'un selon exécuté quand aucun autre ne correspond."),
  ("quitter", "Sort de la boucle ou du selon englobant."),
  ("continuer", "Passe à l'itération suivante de la boucle englobante."),
  ("fonction", "Déclare une fonction."),
  ("retourner", "Renvoie une valeur depuis une fonction. Aussi écrit retourne."),
  ("var", "Déclare une variable."),
  ("vrai", "Le booléen vrai."),
  ("faux", "Le booléen faux."),
  ("nul", "L'absence de valeur."),
  ("afficher", "Écrit une ou plusieurs valeurs suivies d'un saut de ligne."),
  ("et", "Et logique, court-circuité."),
  ("ou", "Ou logique, court-circuité.")]

def keywordMeaning (word : String) : String := (keywordMeanings.lookup word).getD ""

def ofKeyword (word : String) : Entry where
  id := slug word
  name := word
  signature := span "kwd" word
  summary := Manual.summary (keywordMeaning word)
  description := keywordMeaning word

end Entry

end Parlance.Manual
