import ProviderNest.Path

/-!
# Reports

What became of each file of a batch, in the order of the targets, and how many files there are of
each kind.
-/

namespace ProviderNest

/-- What became of a file. -/
inductive Status where
  | updated (count : Nat)
  | unchanged
  | alreadyMigrated
  | notFound
  | failed (error : String)
  deriving DecidableEq, Repr

namespace Status

/-- The name of a status. -/
def name : Status → String
  | updated _ => "updated"
  | unchanged => "unchanged"
  | alreadyMigrated => "already_migrated"
  | notFound => "not_found"
  | failed _ => "failed"

end Status

/-- A target as it was listed, and what became of it. -/
structure FileReport where
  path : Path
  status : Status
  deriving DecidableEq, Repr

/-- The number of files with each status. -/
structure Summary where
  updated : Nat
  unchanged : Nat
  alreadyMigrated : Nat
  notFound : Nat
  failed : Nat
  deriving DecidableEq, Repr

namespace Summary

/-- The summary of no files. -/
def zero : Summary := ⟨0, 0, 0, 0, 0⟩

/-- The summary with one more file. -/
def count (s : Summary) : Status → Summary
  | .updated _ => { s with updated := s.updated + 1 }
  | .unchanged => { s with unchanged := s.unchanged + 1 }
  | .alreadyMigrated => { s with alreadyMigrated := s.alreadyMigrated + 1 }
  | .notFound => { s with notFound := s.notFound + 1 }
  | .failed _ => { s with failed := s.failed + 1 }

/-- The summary in words. -/
def text (s : Summary) : String :=
  toString s.updated ++ " updated, " ++ toString s.unchanged ++ " unchanged, " ++
    toString s.alreadyMigrated ++ " already migrated, " ++ toString s.notFound ++ " not found, " ++
    toString s.failed ++ " failed"

end Summary

/-- The files of a batch, in the order of the targets. -/
structure Report where
  files : List FileReport
  deriving DecidableEq, Repr

namespace Report

/-- The number of files with each status. -/
def summary (r : Report) : Summary := r.files.foldl (fun s f => s.count f.status) .zero

/-- The status of the first file whose path has the same components. -/
def status? (r : Report) (p : Path) : Option Status :=
  (r.files.find? fun f => f.path.same p).map FileReport.status

end Report

end ProviderNest
