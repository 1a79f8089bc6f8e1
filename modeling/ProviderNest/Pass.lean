import ProviderNest.Edit

/-!
# Passes

A pass looks for one shape in a single sweep from left to right and nests what it finds. After a
find the sweep goes on behind it, so what a pass writes is never matched by the same pass. The
shapes are: a flat entry anywhere, a `providers` block, an entry read from the environment, the
object of a `return`, and the `providers` blocks inside the object of a `const` declaration.
-/

namespace ProviderNest

/-- The finds among the `n` positions from `i` on. A find comes with the position at which the
sweep goes on, and positions before `resume` are passed over. -/
def sweep {α : Type} (find : Nat → Option (List α × Nat)) : (n i resume : Nat) → List α
  | 0, _, _ => []
  | n + 1, i, resume =>
    if i < resume then sweep find n (i + 1) resume
    else
      match find i with
      | some (found, next) => found ++ sweep find n (i + 1) next
      | none => sweep find n (i + 1) resume

namespace Source

variable (s : Source)

/-- The braces of the `providers` block whose key is at position `i`. -/
def block? (i : Nat) : Option Braces := do
  guard (s.isWord i providersKey)
  let key ← s.key? i
  s.braces? key.value

/-- The object behind the word `return` at position `i`. -/
def returned? (i : Nat) : Option Braces := do
  guard (s.isWord i (.ofString "return"))
  s.braces? (s.skipTrivia (i + 6))

/-- The position behind the type annotation that may begin at position `i`: a colon and a word. -/
def afterAnnotation? (i : Nat) : Option Nat :=
  if s.codeByte? i = some Byte.colon then
    (s.word? (s.skipTrivia (i + 1))).map fun type => s.skipTrivia type.stop
  else some i

/-- The object that the `const` declaration at position `i` gives to its name. -/
def declared? (i : Nat) : Option Braces := do
  guard (s.isWord i (.ofString "const"))
  let name ← s.word? (s.skipTrivia (i + 5))
  let equals ← s.afterAnnotation? (s.skipTrivia name.stop)
  guard (s.codeByte? equals = some Byte.equals)
  guard (s.codeByte? (equals + 1) ≠ some Byte.equals)
  guard (s.codeByte? (equals + 1) ≠ some Byte.greater)
  s.braces? (s.skipTrivia (equals + 1))

/-- An object introduced at position `i`, as a find, if it has a flat entry. -/
def objectHit? (i : Nat) (b : Braces) : Option (List Hit × Nat) :=
  if (s.flatEntriesOf b).isEmpty then none else some ([.object i b], b.closing + 1)

/-- The `providers` blocks with a flat entry that begin at or behind `start` and end before
`stop`. -/
def blockHits (start stop : Nat) : List Hit :=
  sweep (fun i => do
    let b ← s.block? i
    guard (b.closing < stop)
    s.objectHit? i b) (stop - start) start start

end Source

/-- A pass over a text. -/
inductive Pass where
  | simpleInline
  | providersBlock
  | envAssignment
  | returnLiteral
  | constLiteral
  deriving DecidableEq, Repr

namespace Pass

/-- All passes. -/
def all : List Pass := [simpleInline, providersBlock, envAssignment, returnLiteral, constLiteral]

/-- The name of a pass in reports and traces. -/
def name : Pass → String
  | simpleInline => "simple-inline"
  | providersBlock => "providers-block"
  | envAssignment => "env-assignment"
  | returnLiteral => "return-literal"
  | constLiteral => "const-literal"

/-- The pass with a given name. -/
def ofName? (n : String) : Option Pass := all.find? fun p => p.name == n

/-- What a pass finds at position `i`, and where its sweep goes on. -/
def find? (s : Source) (i : Nat) : Pass → Option (List Hit × Nat)
  | simpleInline => (s.flatEntry? i).map fun e => ([.flat e], e.span.stop)
  | providersBlock => do s.objectHit? i (← s.block? i)
  | envAssignment => (s.envEntry? i).map fun e => ([.env e], e.span.stop)
  | returnLiteral => do s.objectHit? i (← s.returned? i)
  | constLiteral => (s.declared? i).map fun b =>
    (s.blockHits (b.opening + 1) b.closing, b.closing + 1)

/-- Everything that a pass nests, from left to right. -/
def hits (p : Pass) (s : Source) : List Hit := sweep (p.find? s) s.size 0 0

/-- Whether a pass looks for `providers` blocks; it then reports each block that it rebuilds. -/
def findsBlocks : Pass → Bool
  | providersBlock => true
  | constLiteral => true
  | _ => false

end Pass

/-- The result of a pass: the new text, and the edits that led to it. -/
structure PassResult where
  text : Text
  edits : List Edit
  deriving DecidableEq, Repr

/-- The number of entries that the edits nest. -/
def countEdits (edits : List Edit) : Nat := edits.foldr (fun e n => e.count + n) 0

/-- A pass carried out on a text. -/
def Pass.apply (p : Pass) (t : Text) : Except Fault PassResult := do
  let s := Source.ofText t
  let edits ← (p.hits s).mapM (Hit.edit s)
  return ⟨← s.splice edits, edits⟩

end ProviderNest
