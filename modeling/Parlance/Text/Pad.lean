/-
  Texts put together and taken apart.
-/

namespace Parlance.Text

def padLeft (width : Nat) (fill : Char) (s : String) : String :=
  String.ofList (List.replicate (width - s.length) fill) ++ s

def padRight (width : Nat) (fill : Char) (s : String) : String :=
  s ++ String.ofList (List.replicate (width - s.length) fill)

def join (separator : String) : List String → String
  | [] => ""
  | s :: ss => ss.foldl (fun acc t => acc ++ separator ++ t) s

def lines (s : String) : List String := (s.toList.splitOn '\n').map String.ofList

end Parlance.Text
