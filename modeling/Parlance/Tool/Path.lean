/-
  Paths of files.
-/
import Parlance.Text.Pad

namespace Parlance.Path

def parts (path : String) : List String := path.splitOn "/"

def isAbsolute (path : String) : Bool := path.startsWith "/"

/-- Drops names that lead nowhere and takes back names before `..`, the latest name in front. -/
def reduce (rooted : Bool) : (before names : List String) → List String
  | before, [] => before
  | before, name :: names =>
    if name == "" || name == "." then reduce rooted before names
    else if name == ".." then
      match before with
      | last :: rest =>
        if last == ".." then reduce rooted (".." :: before) names else reduce rooted rest names
      | [] => reduce rooted (if rooted then [] else [".."]) names
    else reduce rooted (name :: before) names

def ofNames (rooted : Bool) (names : List String) : String :=
  let path := Text.join "/" names
  if rooted then "/" ++ path else if path.isEmpty then "." else path

/-- A path without detours. -/
def clean (path : String) : String :=
  ofNames (isAbsolute path) (reduce (isAbsolute path) [] (parts path)).reverse

def join (directory path : String) : String := clean (directory ++ "/" ++ path)

def base (path : String) : String :=
  match (parts path).reverse.dropWhile (· == "") with
  | name :: _ => name
  | [] => if path.isEmpty then "." else "/"

def directory (path : String) : String :=
  clean (Text.join "/" ((parts path).dropLast ++ [""]))

def extension (path : String) : String :=
  let name := (parts path).getLastD ""
  let ending := (name.toList.reverse.takeWhile (· != '.')).reverse
  if name.contains '.' then "." ++ String.ofList ending else ""

def withoutExtension (path : String) : String :=
  String.ofList (path.toList.take (path.length - (extension path).length))

/-- A directory and those above it. -/
def ancestors (directory : String) : List String :=
  let names := reduce true [] (parts directory)
  (List.range (names.length + 1)).map fun n => ofNames true (names.drop n).reverse

end Parlance.Path
