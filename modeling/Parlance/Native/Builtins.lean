/-
  The natives of the language.
-/
import Parlance.Native.Doc
import Parlance.Native.Signature
import Parlance.Number.Arithmetic
import Parlance.Number.Reading
import Parlance.Text.Blank
import Parlance.Text.Case

namespace Parlance.Native

/-! ## Forms of functions -/

def onNumber (f : Float → Float) : HostFunction where
  signature := { parameters := [.number], results := [.number] }
  run
    | [.number x] => pure (.ok (.number (f x)))
    | _ => Exec.fault

def onNumbers (f : Float → Float → Float) : HostFunction where
  signature := { parameters := [.number, .number], results := [.number] }
  run
    | [.number x, .number y] => pure (.ok (.number (f x y)))
    | _ => Exec.fault

def onText (f : String → String) : HostFunction where
  signature := { parameters := [.text], results := [.text] }
  run
    | [.text s] => pure (.ok (.text (f s)))
    | _ => Exec.fault

def onAny (f : Value → Exec String) : HostFunction where
  signature := { parameters := [.any], results := [.text] }
  run
    | [.any v] => do pure (.ok (.text (← f v)))
    | _ => Exec.fault

def supply (f : Exec Float) : HostFunction where
  signature := { results := [.number] }
  run _ := do pure (.ok (.number (← f)))

/-! ## The functions -/

def readClock : Exec Float := do
  modify fun m => { m with clock := m.clock + 1 }
  pure (Float.ofNat (← get).clock / 1000000)

/-- A number in [0, 1), from the high bits of a shift register. -/
def drawNumber : Exec Float := do
  let s := (← get).seed
  let s := s ^^^ (s >>> 12)
  let s := s ^^^ (s <<< 25)
  let s := s ^^^ (s >>> 27)
  modify fun m => { m with seed := s }
  let bits : Nat := ((s * 0x2545F4914F6CDD1D) >>> 11).toNat
  pure (Number.ofParts false bits (-53))

/-- A value as a number. -/
def toNumber (v : Value) : Exec (Except String Result) := do
  match v with
  | .number x => pure (.ok (.number x))
  | .bool b => pure (.ok (.number (if b then 1 else 0)))
  | _ =>
    let chars ← match v with
      | .object r => do pure ((← get).heap.chars? r)
      | _ => pure none
    match chars with
    | some s =>
      let s := Text.trimBlanks s
      match Number.read? s with
      | some x => pure (.ok (.number x))
      | none => pure (.error ("impossible de convertir '" ++ s ++ "' en nombre"))
    | none =>
      pure (.error ("impossible de convertir une valeur de type '" ++ (← Exec.typeName v) ++
        "' en nombre"))

def numberOf : HostFunction where
  signature := { parameters := [.any], results := [.number, .failure] }
  run
    | [.any v] => toNumber v
    | _ => Exec.fault

def lengthOf : HostFunction where
  signature := { parameters := [.text], results := [.whole] }
  run
    | [.text s] => pure (.ok (.whole s.length))
    | _ => Exec.fault

def squareRoot : HostFunction where
  signature := { parameters := [.number], results := [.number, .failure] }
  run
    | [.number x] =>
      if x < 0 then pure (.error "racine d'un nombre négatif")
      else pure (.ok (.number x.sqrt))
    | _ => Exec.fault

/-! ## The table of natives -/

/-- A native, and what is said of it. -/
structure Builtin where
  name : String
  function : HostFunction
  doc : Doc

/-- The natives of the language. -/
def builtins : List Builtin := [
  ⟨"abs", onNumber Float.abs,
    ⟨"Renvoie la valeur absolue d'un nombre.", [("x", "Un nombre.")], "nombre"⟩⟩,
  ⟨"aleatoire", supply drawNumber,
    ⟨"Renvoie un nombre pseudo-aléatoire dans [0, 1).", [], "nombre"⟩⟩,
  ⟨"arrondi", onNumber Float.round,
    ⟨"Arrondit un nombre à l'entier le plus proche.", [("x", "Un nombre.")], "nombre"⟩⟩,
  ⟨"horloge", supply readClock,
    ⟨"Renvoie le nombre de secondes écoulées depuis le démarrage du programme.", [], "nombre"⟩⟩,
  ⟨"longueur", lengthOf,
    ⟨"Renvoie le nombre de caractères d'une chaîne.", [("chaine", "La chaîne à mesurer.")],
      "nombre"⟩⟩,
  ⟨"majuscules", onText Text.toUpper,
    ⟨"Renvoie la chaîne convertie en majuscules.", [("chaine", "La chaîne à convertir.")],
      "chaine"⟩⟩,
  ⟨"max", onNumbers Number.greatest,
    ⟨"Renvoie le plus grand de deux nombres.", [("a", "Un nombre."), ("b", "Un nombre.")],
      "nombre"⟩⟩,
  ⟨"min", onNumbers Number.least,
    ⟨"Renvoie le plus petit de deux nombres.", [("a", "Un nombre."), ("b", "Un nombre.")],
      "nombre"⟩⟩,
  ⟨"minuscules", onText Text.toLower,
    ⟨"Renvoie la chaîne convertie en minuscules.", [("chaine", "La chaîne à convertir.")],
      "chaine"⟩⟩,
  ⟨"nombre", numberOf,
    ⟨"Convertit une chaîne ou un booléen en nombre.", [("valeur", "La valeur à convertir.")],
      "nombre"⟩⟩,
  ⟨"plafond", onNumber Float.ceil,
    ⟨"Arrondit un nombre à l'entier supérieur.", [("x", "Un nombre.")], "nombre"⟩⟩,
  ⟨"plancher", onNumber Float.floor,
    ⟨"Arrondit un nombre à l'entier inférieur.", [("x", "Un nombre.")], "nombre"⟩⟩,
  ⟨"puissance", onNumbers Number.power,
    ⟨"Élève une base à une puissance.", [("base", "La base."), ("exposant", "L'exposant.")],
      "nombre"⟩⟩,
  ⟨"racine", squareRoot,
    ⟨"Renvoie la racine carrée d'un nombre positif.", [("x", "Un nombre positif ou nul.")],
      "nombre"⟩⟩,
  ⟨"texte", onAny Exec.text,
    ⟨"Convertit une valeur en chaîne, comme le ferait afficher.",
      [("valeur", "La valeur à convertir.")], "chaine"⟩⟩,
  ⟨"type", onAny Exec.typeName,
    ⟨"Renvoie le nom du type d'une valeur.", [("valeur", "La valeur à inspecter.")], "chaine"⟩⟩]

def builtinDoc? (name : String) : Option Doc :=
  (builtins.find? (·.name == name)).map (·.doc)

/-- The library of the language. -/
def builtinLibrary : Library := (builtins.map fun b => (b.name, Offer.function b.function)).toArray

end Parlance.Native

namespace Parlance.Exec

/-- Binds natives one after the other. -/
def registerAll (library : Native.Library) : List String → (code : Nat) → Exec Unit
  | [], _ => pure ()
  | name :: names, code => do
    discard (register library name code)
    registerAll library names (code + 1)

/-- Binds the natives of the language. -/
def loadBuiltins (library : Native.Library) : Exec Unit :=
  registerAll library (Native.builtins.map (·.name)) 0

end Parlance.Exec
