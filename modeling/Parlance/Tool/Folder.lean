/-
  Folders in memory.
-/
import Parlance.Text.Utf8
import Parlance.Tool.Desk
import Parlance.Tool.Path

namespace Parlance

/-- Files by the names along their paths, with directories. -/
structure Folder where
  files : List (List String × Array UInt8) := []
  directories : List (List String) := []
  current : List String := []
  deriving Inhabited

namespace Folder

/-- Where a path leads. -/
inductive Place where
  | file (names : List String) (bytes : Array UInt8)
  | directory (names : List String)
  | vacant (names : List String)

def file? (f : Folder) (names : List String) : Option (Array UInt8) :=
  (f.files.find? (·.1 == names)).map (·.2)

def isDirectory (f : Folder) (names : List String) : Bool :=
  names.isEmpty || f.directories.any (names.isPrefixOf ·) ||
    f.files.any fun e => names.isPrefixOf e.1 && e.1 != names

def longestName : Nat := 255

def longestPath : Nat := 4095

/-- Follows the names of a path. -/
def follow (f : Folder) : Place → List String → Except FileReason Place
  | place, [] => .ok place
  | .vacant _, _ :: _ => .error .notFound
  | .file .., _ :: _ => .error .notDirectory
  | .directory names, name :: rest =>
    if name == "" || name == "." then follow f (.directory names) rest
    else if name == ".." then follow f (.directory names.dropLast) rest
    else if longestName < name.utf8ByteSize then .error .nameTooLong
    else
      let names := names ++ [name]
      match f.file? names with
      | some bytes => follow f (.file names bytes) rest
      | none =>
        if f.isDirectory names then follow f (.directory names) rest
        else follow f (.vacant names) rest

def start (f : Folder) (path : String) : Place :=
  .directory (if Path.isAbsolute path then [] else f.current)

def refusal? (path : String) : Option FileReason :=
  if path.contains '\x00' then some .badPath
  else if path.isEmpty then some .notFound
  else if longestPath < path.utf8ByteSize then some .nameTooLong
  else none

/-- Where a path leads, if it does. -/
def locate (f : Folder) (path : String) : Except FileReason Place :=
  match refusal? path with
  | some reason => .error reason
  | none => follow f (f.start path) (Path.parts path)

/-- What a path leads to when a file is to be made there. A slash behind the last name asks for a
directory, whether there is one or not. -/
def locateNew (f : Folder) (path : String) : Except FileReason Place :=
  match refusal? path, (Path.parts path).reverse with
  | some reason, _ => .error reason
  | none, "" :: before =>
    match before.dropWhile (· == "") with
    | name :: around =>
      if name == "." || name == ".." then f.locate path
      else
        match follow f (f.start path) (around.reverse ++ ["."]) with
        | .error reason => .error reason
        | .ok _ => .error .isDirectory
    | [] => f.locate path
  | none, _ => f.locate path

def read (f : Folder) (path : String) : Except FileError (Array UInt8) :=
  match f.locate path with
  | .ok (.file _ bytes) => .ok bytes
  | .ok (.directory _) => .error ⟨"read", path, .isDirectory⟩
  | .ok (.vacant _) => .error ⟨"open", path, .notFound⟩
  | .error reason => .error ⟨"open", path, reason⟩

def stat (f : Folder) (path : String) : Except FileError Unit :=
  match f.locate path with
  | .ok (.vacant _) => .error ⟨"stat", path, .notFound⟩
  | .ok _ => .ok ()
  | .error reason => .error ⟨"stat", path, reason⟩

def write (f : Folder) (path : String) (bytes : Array UInt8) : Except FileError Folder :=
  match f.locateNew path with
  | .ok (.file names _) | .ok (.vacant names) =>
    .ok { f with files := (names, bytes) :: f.files.filter (·.1 != names) }
  | .ok (.directory _) => .error ⟨"open", path, .isDirectory⟩
  | .error reason => .error ⟨"open", path, reason⟩

end Folder

/-- A folder with a console, on which commands run without a system. -/
structure Session where
  folder : Folder
  home : String
  input : List String := []
  out : String := ""
  errors : String := ""
  notes : Array String := #[]

namespace Session

def pieceSize : Nat := 4096

/-- Splits input into lines as they are read, behind those read before. `taken` holds the bytes of
the line so far, the latest first; a line that fills the room for it is cut there, but not between
the two marks of a line's end. -/
def splitLines : (before : List String) → (taken : List UInt8) → (count : Nat) → List UInt8 →
    List String
  | before, taken, _, [] => (if taken.isEmpty then before else piece taken :: before).reverse
  | before, taken, count, b :: bs =>
    if b == 0x0A then
      let line := match taken with
        | 0x0D :: rest => rest
        | all => all
      splitLines (piece line :: before) [] 0 bs
    else if count + 1 < pieceSize then splitLines before (b :: taken) (count + 1) bs
    else if b == 0x0D then splitLines (piece taken :: before) [b] 1 bs
    else splitLines (piece (b :: taken) :: before) [] 0 bs
where
  piece (taken : List UInt8) : String := Text.ofBytes taken.reverse.toArray

def linesOf (input : String) : List String := splitLines [] [] 0 input.toUTF8.data.toList

def patience : Nat := 1000000000000000000

instance : Desk (StateM Session) where
  readFile path := return (← get).folder.read path
  writeFile path bytes := do
    let s ← get
    match s.folder.write path bytes with
    | .ok folder =>
      set { s with folder }
      return .ok ()
    | .error e => return .error e
  stat path := return (← get).folder.stat path
  currentDirectory := return Path.ofNames true (← get).folder.current
  homeDirectory := return (← get).home
  print text := modify fun s => { s with out := s.out ++ text }
  printError text := modify fun s => { s with errors := s.errors ++ text }
  readLine := do
    let s ← get
    match s.input with
    | [] => return none
    | line :: input =>
      set { s with input }
      return some line
  log notes := modify fun s => { s with notes := s.notes ++ notes }
  drive host m := do
    let (outcome, m) := m.resume host patience
    modify fun s => { s with out := s.out ++ m.out, notes := s.notes ++ m.heap.journal }
    return (outcome, { m with out := "", heap := { m.heap with journal := #[] } })

end Session

end Parlance
