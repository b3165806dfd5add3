/-
  Descriptions of natives.
-/

namespace Parlance.Native

structure Doc where
  description : String
  parameters : List (String × String) := []
  returns : String
  deriving Repr, DecidableEq, Inhabited

namespace Doc

/-- The description in one line. -/
def signature (d : Doc) (name : String) : String :=
  name ++ "(" ++ ", ".intercalate (d.parameters.map (·.1)) ++ ") -> " ++ d.returns

/-- The description in full. -/
def text (d : Doc) : String :=
  let parameters := d.parameters.map fun (name, description) =>
    "  " ++ name ++ " : " ++ description ++ "\n"
  d.description ++
    (if parameters.isEmpty then "" else "\n\nParamètres :\n" ++ String.join parameters) ++
    if d.returns.isEmpty then "" else "\nRetour : " ++ d.returns

end Doc

end Parlance.Native
