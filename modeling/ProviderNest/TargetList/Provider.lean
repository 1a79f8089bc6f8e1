import ProviderNest.TargetList.BuiltIn

/-!
# Where target lists come from

A list comes from a file or from memory. Of the files, an explicit one is given by its path; the
others have a fixed place under the workspace and under the user's configuration directory. To
`resolve` a list is to take the explicit file if one is given, else the first of the workspace's
and the user's that exists, else the built-in list.
-/

namespace ProviderNest

/-- The directories that a lookup starts from: the working directory for relative paths, and the
user's configuration directory. -/
structure Place where
  cwd : Location
  configuration : Path
  deriving DecidableEq, Repr

/-- The kinds of list files. -/
inductive ListLevel where
  | explicit
  | workspace
  | user
  deriving DecidableEq, Repr

/-- The name of a kind. -/
def ListLevel.name : ListLevel → String
  | explicit => "explicit"
  | workspace => "workspace"
  | user => "user"

/-- A file with a target list. -/
structure ListFile where
  path : Path
  level : ListLevel
  deriving DecidableEq, Repr

namespace ListFile

/-- The file at a given path. -/
def explicit (path : Path) : ListFile := ⟨path, .explicit⟩

/-- The list file of a workspace. -/
def workspace (root : Path) : ListFile :=
  ⟨((root.join ⟨".config"⟩).join ⟨"provmig"⟩).join ⟨"targets.yaml"⟩, .workspace⟩

/-- The list file of the user. -/
def user (place : Place) : ListFile :=
  ⟨(place.configuration.join ⟨"provmig"⟩).join ⟨"targets.yaml"⟩, .user⟩

section
variable (f : ListFile) (tree : FileTree) (place : Place)

/-- Path and kind of a file. -/
def describe : String := f.path.text ++ " (" ++ f.level.name ++ ")"

/-- Whether the file is there. -/
def exists? : Bool := tree.isFile place.cwd f.path

/-- The list in a file, which must have a target. -/
def load : Except ListError TargetList :=
  if f.exists? tree place then
    match tree.readText place.cwd f.path with
    | .error e => .error (.access e)
    | .ok (_, bytes) =>
      match bytes.toString?.bind TargetList.ofText? with
      | none => .error .malformed
      | some list => if list.targets.isEmpty then .error (.noTargets f.path) else .ok list
  else .error (.notFound f.path)

end

end ListFile

/-- Something that gives a target list. -/
inductive ListProvider where
  | file (file : ListFile)
  | memory (list : TargetList)
  deriving DecidableEq, Repr

namespace ListProvider

/-- Where the list comes from, in words. -/
def describe : ListProvider → String
  | file f => f.describe
  | memory _ => "memory"

/-- The list itself. -/
def load (tree : FileTree) (place : Place) : ListProvider → Except ListError TargetList
  | file f => f.load tree place
  | memory list => .ok list

end ListProvider

/-- The origin of a resolved list. -/
inductive ListOrigin where
  | file (file : ListFile)
  | builtIn
  deriving DecidableEq, Repr

/-- The origin in words. -/
def ListOrigin.describe : ListOrigin → String
  | file f => f.describe
  | builtIn => "built-in target list"

/-- A list whose root is settled. -/
structure Resolved where
  root : Path
  targets : List Path
  origin : ListOrigin
  deriving DecidableEq, Repr

/-- The directory that the targets of a list are relative to, in a workspace. -/
def TargetList.rootIn (list : TargetList) (workspace : Path) : Path :=
  match list.root with
  | some root => workspace.join root
  | none => workspace

/-- The list for a workspace: the explicit file, the workspace's, the user's or the built-in one. -/
def resolve (tree : FileTree) (place : Place) (explicit : Option Path) (workspace : Path) :
    Except ListError Resolved :=
  let ofFile (f : ListFile) : Except ListError Resolved := do
    let list ← f.load tree place
    return ⟨list.rootIn workspace, list.targets, .file f⟩
  match explicit with
  | some path => ofFile (.explicit path)
  | none =>
    let found := [ListFile.workspace workspace, ListFile.user place].find? (·.exists? tree place)
    match found with
    | some f => ofFile f
    | none => .ok ⟨TargetList.builtIn.rootIn workspace, TargetList.builtIn.targets, .builtIn⟩

end ProviderNest
