import ProviderNest.Path
import ProviderNest.Text.Basic

/-!
# File trees

A file tree maps locations to directories and to files with their bytes. A path is looked up from
a working directory one part at a time (`FileTree.locate`): whatever a part is looked up in has to
be a directory, and the parent of a directory is only reached through that directory, so `..` does
not cancel a part that is not there. A slash at the end asks for a directory.
-/

namespace ProviderNest

/-- The names on the way from the root to a directory or file. -/
abbrev Location := List String

/-- What is at a location. -/
inductive Node where
  | directory
  | file (bytes : Text)
  deriving DecidableEq, Repr

/-- Why a file could not be read. -/
inductive AccessError where
  | notFound
  | notDirectory
  | isDirectory
  | nameTooLong
  | nulByte
  | notText
  deriving DecidableEq, Repr

namespace AccessError

/-- The wording of an error. -/
def message : AccessError → String
  | notFound => "No such file or directory (os error 2)"
  | notDirectory => "Not a directory (os error 20)"
  | isDirectory => "Is a directory (os error 21)"
  | nameTooLong => "File name too long (os error 36)"
  | nulByte => "file name contained an unexpected NUL byte"
  | notText => "stream did not contain valid UTF-8"

end AccessError

/-- Locations with what is there, each at most once. The root itself is a directory and is not
listed. -/
structure FileTree where
  nodes : List (Location × Node)
  deriving DecidableEq, Repr

namespace FileTree

/-- The longest name of a file, in bytes. -/
def maxNameLength : Nat := 255

/-- The longest path, in bytes. -/
def maxPathLength : Nat := 4095

section
variable (t : FileTree)

/-- What is at a location. -/
def node? (l : Location) : Option Node := if l.isEmpty then some .directory else t.nodes.lookup l

/-- The location reached from `l` by one part of a path. -/
def step (l : Location) (part : String) : Except AccessError Location :=
  match t.node? l with
  | none => .error .notFound
  | some (.file _) => .error .notDirectory
  | some .directory =>
    if part = "." then .ok l
    else if part = ".." then .ok l.dropLast
    else if maxNameLength < part.utf8ByteSize then .error .nameTooLong
    else if (t.node? (l ++ [part])).isSome then .ok (l ++ [part])
    else .error .notFound

/-- The location of a path that is looked up from the directory `cwd`. -/
def locate (cwd : Location) (p : Path) : Except AccessError Location :=
  if p.text.toList.contains '\x00' then .error .nulByte
  else if p.text.isEmpty then .error .notFound
  else if maxPathLength < p.text.utf8ByteSize then .error .nameTooLong
  else
    let parts := if p.endsWithSlash then p.names ++ ["."] else p.names
    parts.foldlM t.step (if p.isAbsolute then [] else cwd)

/-- The bytes of the file at a location. -/
def readAt (l : Location) : Except AccessError Text :=
  match t.node? l with
  | none => .error .notFound
  | some .directory => .error .isDirectory
  | some (.file bytes) => .ok bytes

/-- The location and the bytes of the text file at a path. -/
def readText (cwd : Location) (p : Path) : Except AccessError (Location × Text) := do
  let l ← t.locate cwd p
  let bytes ← t.readAt l
  if (Text.decode? bytes).isSome then return (l, bytes) else throw .notText

/-- Whether a path leads to a file. -/
def isFile (cwd : Location) (p : Path) : Bool :=
  match t.locate cwd p with
  | .error _ => false
  | .ok l =>
    match t.node? l with
    | some (.file _) => true
    | _ => false

/-- The tree with other bytes in the file at a location. -/
def write (l : Location) (bytes : Text) : FileTree :=
  ⟨t.nodes.map fun n => if n.1 = l then (n.1, .file bytes) else n⟩

end

end FileTree

end ProviderNest
