/-
A folder of files, in which paths lead to files and to the folders around them. A path is walked name by name: an
empty name and a point stay where they are, two points go up, and only folders can be walked through. Nothing is known
of what lies outside the folder but that there are folders.
-/
import Ouroboros.Text.Bytes

namespace Ouroboros.CommandLine

/-- why a file cannot be read -/
inductive FileFault where
  | notFound
  | notFolder
  | isFolder
  | nameTooLong
  | badName
  /-- another reason that the system gives -/
  | refused (reason : Bytes)
deriving DecidableEq, Repr

namespace FileFault

/-- the fault of a path in words: a folder can be opened but not read -/
def message (path : Bytes) : FileFault → Bytes
  | .notFound => text "open " ++ path ++ text ": no such file or directory"
  | .notFolder => text "open " ++ path ++ text ": not a directory"
  | .isFolder => text "read " ++ path ++ text ": is a directory"
  | .nameTooLong => text "open " ++ path ++ text ": file name too long"
  | .badName => text "open " ++ path ++ text ": invalid argument"
  | .refused reason => text "open " ++ path ++ text ": " ++ reason

end FileFault

/-- files by the names on the way to them -/
structure Folder where
  files : List (List Bytes × Bytes)
deriving Repr

inductive Place where
  /-- a folder, by the names on the way to it -/
  | inside (names : List Bytes)
  | outside
  | file (content : Bytes)
deriving DecidableEq, Repr

namespace Folder

def names : Bytes → List Bytes
  | [] => [[]]
  | b :: rest =>
    if b = Bytes.slash then [] :: names rest
    else
      match names rest with
      | [] => [[b]]
      | name :: others => (b :: name) :: others

/-- a folder of files, given by their paths -/
def ofPaths (files : List (Bytes × Bytes)) : Folder := ⟨files.map fun f => (names f.1, f.2)⟩

/-- the file or folder with a name in a folder -/
def child? (folder : Folder) (way : List Bytes) (name : Bytes) : Option Place :=
  let way := way ++ [name]
  match folder.files.find? fun f => f.1 == way with
  | some f => some (.file f.2)
  | none => if folder.files.any fun f => way.isPrefixOf f.1 then some (.inside way) else none

def nameLimit : Nat := 255

def pathLimit : Nat := 4095

def step (folder : Folder) (place : Place) (name : Bytes) : Except FileFault Place :=
  match place with
  | .file _ => .error .notFolder
  | .outside =>
    if name = [] ∨ name = text "." ∨ name = text ".." then .ok .outside
    else if nameLimit < name.length then .error .nameTooLong
    else .error .notFound
  | .inside way =>
    if name = [] ∨ name = text "." then .ok place
    else if name = text ".." then .ok (if way = [] then .outside else .inside way.dropLast)
    else if nameLimit < name.length then .error .nameTooLong
    else
      match folder.child? way name with
      | some place => .ok place
      | none => .error .notFound

/-- the file or folder at a path, which starts in the folder unless it starts with a slash -/
def find (folder : Folder) (path : Bytes) : Except FileFault Place :=
  if path.contains 0 then .error .badName
  else if path = [] then .error .notFound
  else if pathLimit < path.length then .error .nameTooLong
  else
    let start := if path.head? = some Bytes.slash then .outside else .inside []
    (names path).foldlM folder.step start

/-- the content of the file at a path -/
def read (folder : Folder) (path : Bytes) : Except FileFault Bytes :=
  match folder.find path with
  | .ok (.file content) => .ok content
  | .ok _ => .error .isFolder
  | .error fault => .error fault

end Folder

end Ouroboros.CommandLine
