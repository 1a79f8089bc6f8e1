import ProviderNest.Command.Arguments
import ProviderNest.Log.Console
import ProviderNest.Report.Json
import ProviderNest.SingleFile

/-!
# The two commands

`update-providers` migrates one file and fails if it cannot; `update-all-providers` migrates the
files of a target list, reports what became of each and succeeds whatever that is. A command is
carried out on a file tree, and its effects are all in the `CommandRun`.
-/

namespace ProviderNest

/-- The version of the commands. -/
def version : String := "0.1.0"

/-- A command. -/
inductive Command where
  | updateProviders
  | updateAllProviders
  deriving DecidableEq, Repr

/-- The effects of a command: its exit status, its output, the tree it leaves, the files it wrote
and what it traced. -/
structure CommandRun where
  exit : Nat
  printed : Printed
  tree : FileTree
  written : List Location
  traced : List Traced
  deriving DecidableEq, Repr

/-- A command that leaves the tree as it is. -/
def CommandRun.only (exit : Nat) (printed : Printed) (tree : FileTree) : CommandRun :=
  ⟨exit, printed, tree, [], []⟩

namespace Command

/-- All commands. -/
def all : List Command := [updateProviders, updateAllProviders]

/-- The name by which a command is called. -/
def name : Command → String
  | updateProviders => "update-providers"
  | updateAllProviders => "update-all-providers"

/-- The command with a given name. -/
def ofName? (n : String) : Option Command := all.find? fun c => c.name == n

/-- What a command understands. -/
def grammar : Command → Grammar
  | updateProviders => ⟨[], 1⟩
  | updateAllProviders =>
    ⟨[⟨"config", none, true⟩, ⟨"root", none, true⟩, ⟨"json", none, false⟩,
      ⟨"verbose", some 'v', false⟩], 0⟩

/-- The answer to a request for help. -/
def help : Command → String
  | updateProviders =>
    "Nest the provider configs of one file under `default`\n\n" ++
    "Usage: update-providers <FILE_PATH>\n\n" ++
    "Arguments:\n" ++
    "  <FILE_PATH>  File to rewrite in place\n\n" ++
    "Options:\n" ++
    "  -h, --help     Print help\n" ++
    "  -V, --version  Print version\n"
  | updateAllProviders =>
    "Nest every provider config under `default` across the configured target files\n\n" ++
    "Usage: update-all-providers [OPTIONS]\n\n" ++
    "Options:\n" ++
    "      --config <FILE>  Target list file (YAML). Defaults to .config/provmig/targets.yaml, " ++
    "then the user config, then the built-in list\n" ++
    "      --root <DIR>     Directory the target list is resolved against [default: .]\n" ++
    "      --json           Print the run report as JSON\n" ++
    "  -v, --verbose        Print debug messages\n" ++
    "  -h, --help           Print help\n" ++
    "  -V, --version        Print version\n"

/-- The answer to a command line that is not understood. -/
def usageError (tree : FileTree) : Command → CommandRun
  | updateProviders => .only 1 ⟨"", "Usage: update-providers <file_path>\n"⟩ tree
  | updateAllProviders =>
    .only 2 ⟨"", "Usage: update-all-providers [OPTIONS]\n\n" ++
      "For more information, try '--help'.\n"⟩ tree

/-- One file migrated. -/
def runOne (tree : FileTree) (place : Place) (path : Path) : Except Fault CommandRun := do
  let console : Console := {}
  match ← migrateFile tree place.cwd path with
  | .ok r =>
    let log := r.log ++ [⟨.info, "Successfully updated " ++ path.text⟩]
    return ⟨0, console.displayAll log, r.tree, [r.written], r.traced⟩
  | .error e =>
    let failed : Record := ⟨.error, "Error processing " ++ path.text ++ ": " ++ e.message⟩
    return .only 1 (console.display failed) tree

/-- The list file that the arguments name. -/
def configOf (items : List Given) : Option Path := (Arguments.value? items "config").map Path.mk

/-- The workspace that the arguments name, or the working directory. -/
def rootOf (items : List Given) : Path := ⟨(Arguments.value? items "root").getD "."⟩

/-- The files of a target list migrated. -/
def runAll (tree : FileTree) (place : Place) (items : List Given) : Except Fault CommandRun := do
  let console : Console := { verbose := Arguments.hasFlag items "verbose" }
  match resolve tree place (configOf items) (rootOf items) with
  | .error e =>
    return .only 0 (console.display ⟨.error, "Failed to load target list: " ++ e.message⟩) tree
  | .ok resolved =>
    let origin : Record := ⟨.debug, "Using " ++ resolved.origin.describe ++ " (" ++
      toString resolved.targets.length ++ " target(s))"⟩
    let r ← (Batch.ofResolved resolved).run tree place.cwd
    let last : Printed :=
      if Arguments.hasFlag items "json" then ⟨r.report.json.lines "" ++ "\n", ""⟩
      else console.display ⟨.info, "Done: " ++ r.report.summary.text⟩
    return ⟨0, console.displayAll (origin :: r.log) ++ last, r.tree, r.written, r.traced⟩

/-- The paths that a command looks up, as far as the tree tells: a target list that is not in the
tree yet names no targets. -/
def lookups (c : Command) (args : List String) (tree : FileTree) (place : Place) : List Path :=
  match c.grammar.read args with
  | .given items =>
    match c with
    | .updateProviders => (items.filterMap Given.plain?).map Path.mk
    | .updateAllProviders =>
      let root := rootOf items
      let targets := match resolve tree place (configOf items) root with
        | .ok r => r.targets.map r.root.join
        | .error _ => []
      let lists := [(ListFile.workspace root).path, (ListFile.user place).path]
      (configOf items).toList ++ lists ++ targets
  | _ => []

/-- A command carried out. -/
def run (c : Command) (args : List String) (tree : FileTree) (place : Place) :
    Except Fault CommandRun :=
  match c.grammar.read args with
  | .usageError => .ok (c.usageError tree)
  | .help => .ok (.only 0 ⟨c.help, ""⟩ tree)
  | .version => .ok (.only 0 ⟨c.name ++ " " ++ version ++ "\n", ""⟩ tree)
  | .given items =>
    match c, items.findSome? Given.plain? with
    | .updateProviders, some path => runOne tree place ⟨path⟩
    | .updateProviders, none => .ok (c.usageError tree)
    | .updateAllProviders, _ => runAll tree place items

end Command

end ProviderNest
