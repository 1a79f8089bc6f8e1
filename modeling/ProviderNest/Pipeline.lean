import ProviderNest.Pass

/-!
# Pipelines

A pipeline is a named list of passes, each of which works on the text that the one before it left.
A `Migration` is the final text with what each pass did on the way.
-/

namespace ProviderNest

/-- A named list of passes. -/
structure Pipeline where
  name : String
  passes : List Pass
  deriving DecidableEq, Repr

/-- What one pass of a run did. -/
structure Stage where
  pass : Pass
  edits : List Edit
  deriving DecidableEq, Repr

/-- The number of entries that the pass nested. -/
def Stage.count (g : Stage) : Nat := countEdits g.edits

/-- The final text of a run, and its passes in order. -/
structure Migration where
  text : Text
  stages : List Stage
  deriving DecidableEq, Repr

/-- The number of entries that all passes nested together. -/
def Migration.count (m : Migration) : Nat := m.stages.foldr (fun g n => g.count + n) 0

/-- The passes carried out one after the other. -/
def runPasses : List Pass → Text → Except Fault Migration
  | [], t => .ok ⟨t, []⟩
  | p :: ps, t => do
    let out ← p.apply t
    let rest ← runPasses ps out.text
    return ⟨rest.text, ⟨p, out.edits⟩ :: rest.stages⟩

namespace Pipeline

/-- The pipeline for many files: whole blocks first, then what is built without one. -/
def batch : Pipeline :=
  ⟨"batch", [.providersBlock, .envAssignment, .returnLiteral, .constLiteral]⟩

/-- The pipeline for one file: whole blocks first, then every flat entry that is left. -/
def singleFile : Pipeline := ⟨"single-file", [.providersBlock, .simpleInline]⟩

/-- A pipeline carried out on a text. -/
def run (p : Pipeline) (t : Text) : Except Fault Migration := runPasses p.passes t

/-- A one-line description: the name and the names of the passes, in quotes. -/
def describe (p : Pipeline) : String :=
  let passes := p.passes.map fun pass => "\"" ++ pass.name ++ "\""
  "Pipeline \x7b name: \"" ++ p.name ++ "\", passes: [" ++ ", ".intercalate passes ++ "] \x7d"

end Pipeline

end ProviderNest
