import ProviderNest.FileTree.Basic
import ProviderNest.Yaml.Node

/-!
# Target lists

A target list names the files to migrate and the directory that they are relative to. It is
written as a YAML mapping with the keys `root` and `targets`; both may be left out, other keys are
passed over, and any scalar is taken as text where a path is wanted.
-/

namespace ProviderNest

/-- Files to migrate, in order, and the directory they are relative to. -/
structure TargetList where
  root : Option Path
  targets : List Path
  deriving DecidableEq, Repr

/-- Why there is no target list. -/
inductive ListError where
  | notFound (path : Path)
  | access (cause : AccessError)
  | malformed
  | noTargets (path : Path)
  deriving DecidableEq, Repr

namespace ListError

/-- The wording of an error. -/
def message : ListError → String
  | notFound path => "Target list not found: " ++ path.text
  | access cause => "IO error: " ++ cause.message
  | malformed => "Failed to parse YAML: malformed target list"
  | noTargets path => "Configuration error: " ++ path.text ++ " lists no targets"

end ListError

namespace TargetList

/-- The list with nothing in it. -/
def empty : TargetList := ⟨none, []⟩

/-- A plain scalar that stands for nothing. -/
def isNull (text : String) : Bool :=
  text == "" || text == "~" || text == "null" || text == "Null" || text == "NULL"

/-- The path that a node spells. -/
def path? : Yaml.Node → Option Path
  | .scalar text _ => some ⟨text⟩
  | _ => none

/-- The root that a node gives; a plain null gives none. -/
def root? : Yaml.Node → Option (Option Path)
  | .scalar text plain => some (if plain && isNull text then none else some ⟨text⟩)
  | _ => none

/-- The targets that a node lists; where nothing is written there are none. -/
def targets? : Yaml.Node → Option (List Path)
  | .sequence items => items.mapM path?
  | .scalar text plain => if plain && text == "" then some [] else none
  | .mapping _ => none

/-- The key that a node spells. -/
def keyText? : Yaml.Node → Option String
  | .scalar text _ => some text
  | _ => none

/-- The values of the pairs with a key, of which there may be one. -/
def field? (name : String) (pairs : List (String × Yaml.Node)) : Option (Option Yaml.Node) :=
  match pairs.filter (·.1 == name) with
  | [] => some none
  | [pair] => some (some pair.2)
  | _ => none

/-- The list that a mapping describes. -/
def ofPairs? (pairs : List (Yaml.Node × Yaml.Node)) : Option TargetList := do
  let pairs ← pairs.mapM fun (k, v) => do return (← keyText? k, v)
  let root ← match ← field? "root" pairs with
    | some node => root? node
    | none => some none
  let targets ← match ← field? "targets" pairs with
    | some node => targets? node
    | none => some []
  return ⟨root, targets⟩

/-- The list that a document describes; an empty document describes an empty list. -/
def ofNode? : Yaml.Node → Option TargetList
  | .mapping pairs => ofPairs? pairs
  | .scalar text plain => if plain && text == "" then some empty else none
  | .sequence _ => none

/-- The list that a text describes. -/
def ofText? (t : String) : Option TargetList := do
  match ← Yaml.Node.ofText? t with
  | some node => ofNode? node
  | none => return empty

end TargetList

end ProviderNest
