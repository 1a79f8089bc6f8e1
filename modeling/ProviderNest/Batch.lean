import ProviderNest.Log.Trace
import ProviderNest.Migrated
import ProviderNest.Report.Basic
import ProviderNest.TargetList.Provider
import ProviderNest.Text.Quoted

/-!
# Batches

A batch migrates a list of files one after the other. What is done with a file depends on the tree
as the files before it left it (`Batch.process`); a file that is missing or cannot be read is
reported and the batch goes on. Everything that a batch does is in its `BatchRun`.
-/

namespace ProviderNest

/-- Why a file was not migrated. -/
inductive MigrateError where
  | notFound (path : Path)
  | access (path : Path) (cause : AccessError)
  | list (cause : ListError)
  deriving DecidableEq, Repr

namespace MigrateError

/-- The error for a path that could not be read. -/
def ofAccess (path : Path) : AccessError → MigrateError
  | .notFound => notFound path
  | e => access path e

/-- The wording of an error. -/
def message : MigrateError → String
  | notFound path => "No such file: " ++ path.text
  | access path cause => "Failed to access " ++ path.text ++ ": " ++ cause.message
  | list cause => "Configuration error: " ++ cause.message

/-- Whether the file is missing. -/
def isNotFound : MigrateError → Bool
  | notFound _ => true
  | _ => false

end MigrateError

/-- What was done with one file: its status, the messages, and the text that is written to it. -/
structure Processed where
  status : Status
  log : Log
  traced : List Traced
  written : Option (Location × Text)
  deriving DecidableEq, Repr

/-- A list of files and the directory that they are relative to. -/
structure Batch where
  root : Path
  targets : List Path
  deriving DecidableEq, Repr

/-- The result of a batch: the tree it leaves, its files, its messages, and where it wrote. -/
structure BatchRun where
  tree : FileTree
  files : List FileReport
  log : Log
  traced : List Traced
  written : List Location
  deriving DecidableEq, Repr

/-- The report of a run. -/
def BatchRun.report (r : BatchRun) : Report := ⟨r.files⟩

namespace Batch

/-- What is done with a text file of a batch. -/
def processText (target : Path) (l : Location) (t : Text) : Except Fault Processed :=
  if t.isMigrated then
    .ok ⟨.alreadyMigrated, [⟨.info, "Skipping " ++ target.text ++ " (already migrated)"⟩], [], none⟩
  else do
    let started : Record := ⟨.info, "Processing " ++ target.text ++ "..."⟩
    let m ← Pipeline.batch.run t
    let traced := m.traced Pipeline.batch.name
    if m.text = t then
      return ⟨.unchanged, [started, ⟨.info, "No changes needed for " ++ target.text⟩], traced, none⟩
    else
      return ⟨.updated m.count, [started, ⟨.info, "Updated " ++ target.text⟩], traced,
        some (l, m.text)⟩

/-- What is done with a file of a batch that could not be read. -/
def processError (target : Path) (e : MigrateError) : Processed :=
  if e.isNotFound then
    ⟨.notFound, [⟨.info, "Skipping " ++ target.text ++ " (not found)"⟩], [], none⟩
  else
    ⟨.failed e.message, [⟨.error, "Error processing " ++ target.text ++ ": " ++ e.message⟩], [],
      none⟩

/-- What is done with a target under `root`. -/
def process (tree : FileTree) (cwd : Location) (root target : Path) : Except Fault Processed :=
  let path := root.join target
  match tree.readText cwd path with
  | .ok (l, t) => processText target l t
  | .error e => .ok (processError target (.ofAccess path e))

/-- The targets of a batch processed in order. -/
def processAll (cwd : Location) (root : Path) : FileTree → List Path → Except Fault BatchRun
  | tree, [] => .ok ⟨tree, [], [], [], []⟩
  | tree, target :: targets => do
    let p ← process tree cwd root target
    let after := match p.written with
      | some (l, t) => tree.write l t
      | none => tree
    let rest ← processAll cwd root after targets
    return ⟨rest.tree, ⟨target, p.status⟩ :: rest.files, p.log ++ rest.log, p.traced ++ rest.traced,
      p.written.toList.map Prod.fst ++ rest.written⟩

/-- A batch carried out, with a message on its outcome at the end of the log. -/
def run (b : Batch) (tree : FileTree) (cwd : Location) : Except Fault BatchRun := do
  let r ← processAll cwd b.root tree b.targets
  return { r with log := r.log ++ [⟨.debug, "Batch finished: " ++ r.report.summary.text⟩] }

/-- A one-line description: the root, the number of targets and the pipeline. -/
def describe (b : Batch) : String :=
  "BatchMigrator \x7b root: " ++ Quoted.encode b.root.text ++ ", targets: " ++
    toString b.targets.length ++ ", pipeline: " ++ Pipeline.batch.describe ++ " \x7d"

/-- The batch of a resolved target list. -/
def ofResolved (r : Resolved) : Batch := ⟨r.root, r.targets⟩

/-- The batch of the list that a provider gives, and the message that it was loaded. -/
def ofProvider (tree : FileTree) (place : Place) (p : ListProvider) (workspace : Path) :
    Except MigrateError (Batch × Log) :=
  match p.load tree place with
  | .error e => .error (.list e)
  | .ok list =>
    .ok (⟨list.rootIn workspace, list.targets⟩, [⟨.debug,
      "Loaded " ++ toString list.targets.length ++ " target(s) from " ++ p.describe⟩])

end Batch

end ProviderNest
