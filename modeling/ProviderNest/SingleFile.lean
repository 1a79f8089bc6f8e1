import ProviderNest.Batch

/-!
# Single files

One file migrated by the short pipeline. It is written back whether or not anything changed, and
a file that cannot be read is an error of the caller's.
-/

namespace ProviderNest

/-- The result of migrating one file. -/
structure FileRun where
  migration : Migration
  tree : FileTree
  log : Log
  written : Location
  deriving DecidableEq, Repr

/-- The trace of migrating one file. -/
def FileRun.traced (r : FileRun) : List Traced := r.migration.traced Pipeline.singleFile.name

/-- The file at a path migrated and written back. -/
def migrateFile (tree : FileTree) (cwd : Location) (path : Path) :
    Except Fault (Except MigrateError FileRun) :=
  match tree.readText cwd path with
  | .error e => .ok (.error (.ofAccess path e))
  | .ok (l, t) => do
    let m ← Pipeline.singleFile.run t
    let log := [⟨.debug, path.text ++ ": " ++ toString m.count ++ " provider(s) rewritten"⟩]
    return .ok ⟨m, tree.write l m.text, log, l⟩

end ProviderNest
