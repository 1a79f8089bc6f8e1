import ProviderNest.FileTree.Basic

/-!
# Building file trees

Files and directories put into a tree and taken out of it. What is put at a location brings the
directories on the way with it.
-/

namespace ProviderNest.FileTree

/-- The tree without files and directories. -/
def empty : FileTree := ⟨[]⟩

/-- The location that a path spells, seen from `cwd`, whether or not it is there. -/
def spell (cwd : Location) (p : Path) : Location :=
  let step (l : Location) (part : String) : Location :=
    if part = "." then l else if part = ".." then l.dropLast else l ++ [part]
  p.names.foldl step (if p.isAbsolute then [] else cwd)

/-- The locations on the way along a path, the last one included. -/
def trail (cwd : Location) (p : Path) : List Location :=
  (List.range (p.names.length + 1)).map fun n =>
    spell (if p.isAbsolute then [] else cwd) ⟨"/".intercalate (p.names.take n)⟩

section
variable (t : FileTree)

/-- The tree with something at a location that was free. -/
def add (l : Location) (n : Node) : FileTree :=
  if (t.node? l).isSome then t else ⟨t.nodes ++ [(l, n)]⟩

/-- The tree with a directory at a location and on the way to it. -/
def makeDirectory (l : Location) : FileTree :=
  (List.range (l.length + 1)).foldl (fun t n => t.add (l.take n) .directory) t

/-- The tree with a file at a location. -/
def put (l : Location) (bytes : Text) : FileTree :=
  ((t.makeDirectory l.dropLast).add l (.file bytes)).write l bytes

/-- The tree without what is at a location and below it. -/
def remove (l : Location) : FileTree := ⟨t.nodes.filter fun n => !l.isPrefixOf n.1⟩

/-- The files of a tree with their bytes. -/
def files : List (Location × Text) :=
  t.nodes.filterMap fun n =>
    match n.2 with
    | .file bytes => some (n.1, bytes)
    | .directory => none

end

end ProviderNest.FileTree
