/-
  A folder of files, and paths that lead to them.

  Steps of a path are parted by slashes; a step that is empty or a dot stays
  where it is, and two dots lead outwards.  Outside of the folder nothing is
  known but the folders around it.
-/
import ZMachine.Word

namespace ZMachine

/-- Why a file cannot be read. -/
inductive FileError where
  | missing
  /-- The path leads on from a file. -/
  | notAFolder
  /-- The path leads to a folder. -/
  | isFolder
  | unreadable (reason : String)
deriving DecidableEq, Repr, Inhabited

namespace FileError

/-- Wording of a file error. -/
def message : FileError → String
  | missing => "No such file or directory (os error 2)"
  | notAFolder => "Not a directory (os error 20)"
  | isFolder => "Is a directory (os error 21)"
  | unreadable reason => reason

/-- Whether an error says that a path leads nowhere. -/
def isAbsence : FileError → Bool
  | missing | notAFolder => true
  | _ => false

end FileError

/-- Files by their names, which may lead through inner folders. -/
abbrev Folder := List (List String × Array Byte)

namespace Folder

/-- Files whose names are given as texts. -/
def ofFiles (files : List (String × Array Byte)) : Folder :=
  files.map fun (name, bytes) => (name.splitOn "/", bytes)

/-- Where a path leads to. -/
inductive Place where
  /-- An inner folder, or the folder itself. -/
  | folder (names : List String)
  /-- So many folders further out. -/
  | outside (levels : Nat)
  | file (bytes : Array Byte)

/-- One step of a path. -/
def step (f : Folder) (place : Place) (name : String) : Except FileError Place :=
  match place with
  | .file _ => .error .notAFolder
  | .outside levels =>
      if name.isEmpty ∨ name = "." then .ok (.outside levels)
      else if name = ".." then .ok (.outside (levels + 1))
      else .error .missing
  | .folder names =>
      if name.isEmpty ∨ name = "." then .ok (.folder names)
      else if name = ".." then
        .ok (if names.isEmpty then .outside 1 else .folder names.dropLast)
      else
        let inner := names ++ [name]
        match f.lookup inner with
        | some bytes => .ok (.file bytes)
        | none =>
            if f.any fun entry => inner.isPrefixOf entry.1 then .ok (.folder inner)
            else .error .missing

/-- Read the file at a path.  A path that begins with a slash begins outside. -/
def read (f : Folder) (path : String) : Except FileError (Array Byte) := do
  let start := if path.startsWith "/" then Place.outside 0 else .folder []
  match ← (path.splitOn "/").foldlM f.step start with
  | .file bytes => return bytes
  | _ => throw .isFolder

end Folder

end ZMachine
