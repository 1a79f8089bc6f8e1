import ProviderNest.Migrated
import ProviderNest.Proofs.FirstField

/-!
# Every access checked

The functions of this library answer at every position, so some of what can go wrong in a text would
not be seen: a byte looked up outside the text, a cut inside a character, a depth that has outgrown
its counter. Here the same engine is written out once more with all of that in the open. A byte is
looked up only inside the text (`Checked.cell`), a part is compared or taken only after it has been
cut out (`Checked.cut`, `Checked.rest`), and depths are counted in words of limited width
(`Checked.unsigned`, `Checked.signed`). The first access that is refused ends everything with a
`Breach`. That a search finds nothing is no breach, and `Seek` keeps the two apart.
-/

namespace ProviderNest

/-- Why an access is refused. -/
inductive Breach where
  /-- A text cannot be cut there. -/
  | fault (fault : Fault)
  /-- A byte is looked up outside the text. -/
  | index
  /-- A counter leaves its range. -/
  | counter
  deriving DecidableEq, Repr

/-- A search that may find nothing, and that may be refused. -/
abbrev Seek := OptionT (Except Breach)

namespace Checked

/-- The outcome of a search that is not refused. -/
def found {α : Type} (x : Option α) : Seek α := OptionT.mk (.ok x)

/-- What a cut gives, or the breach. -/
def allow {α : Type} (x : Except Fault α) : Except Breach α := x.mapError .fault

/-- The value of a counter of 64 bits that counts from zero. -/
def unsigned (n : Int) : Except Breach Nat :=
  if 0 ≤ n ∧ n < 2 ^ 64 then .ok n.toNat else .error .counter

/-- The value of a counter of 32 bits with a sign. -/
def signed (n : Int) : Except Breach Int :=
  if -2 ^ 31 ≤ n ∧ n < 2 ^ 31 then .ok n else .error .counter

/-! ## Classifying a text -/

/-- The text from position `i` on. -/
def rest (t : Text) (i : Nat) : Except Breach Text :=
  if t.length < i then .error (.fault .outOfRange)
  else if t[i]?.any Byte.isContinuation then .error (.fault .insideCharacter)
  else .ok (t.drop i)

/-- The kinds of the bytes from position `i` on, where a lexeme begins, in at most `n` lexemes. The
end of a comment is looked for in the text from its first byte on, or behind `/*`, and a lexeme must
end inside the text. -/
def kindsFrom (t : Text) : (n i : Nat) → Except Breach (List Kind)
  | 0, _ => .ok []
  | n + 1, i =>
    match t[i]? with
    | none => .ok []
    | some b => do
      let l := Kind.lexeme b (t.drop (i + 1))
      if l.1 = .comment then
        let _ ← rest t (if t[i + 1]? = some Byte.star then i + 2 else i)
      if t.length < i + (l.2 + 1) then throw .index
      return List.replicate (l.2 + 1) l.1 ++ (← kindsFrom t n (i + (l.2 + 1)))

/-- The text with each byte classified. -/
def classify (t : Text) : Except Breach Source := do
  return ⟨(List.zipWith Cell.mk t (← kindsFrom t t.length 0)).toArray⟩

/-! ## Walks -/

/-- From `i` upwards, at most `n` steps, past the positions for which `p` holds. -/
def forward (p : Nat → Except Breach Bool) : (n i : Nat) → Except Breach Nat
  | 0, i => .ok i
  | n + 1, i => do if ← p i then forward p n (i + 1) else return i

/-- From `i` downwards, at most `n` steps, past the positions for which `p` holds just below. -/
def backward (p : Nat → Except Breach Bool) : (n i : Nat) → Except Breach Nat
  | 0, i => .ok i
  | n + 1, i => do if ← p (i - 1) then backward p n (i - 1) else return i

section
variable (s : Source)

/-- The cell at position `i`. -/
def cell (i : Nat) : Except Breach Cell :=
  match s.cells[i]? with
  | some c => .ok c
  | none => .error .index

/-- The bytes of a span. -/
def cut (x : Span) : Except Breach Text := allow (s.cut x)

/-- Whether position `i` may stand between two tokens. -/
def isTrivia (i : Nat) : Except Breach Bool := do
  return (← cell s i).isTrivia

/-- The first position from `i` on that is not trivia. -/
def skipTrivia (i : Nat) : Except Breach Nat := forward (isTrivia s) (s.size - i) i

/-- The end of `start..stop` after trivia at its end is taken off. -/
def trimTrivia (start stop : Nat) : Except Breach Nat :=
  backward (isTrivia s) (stop - start) stop

/-- The last code byte before position `i`, past trivia. -/
def precedingCode? (i : Nat) : Except Breach (Option UInt8) := do
  match ← trimTrivia s 0 i with
  | 0 => return none
  | j + 1 => return s.codeByte? j

/-! ## Words and keys -/

/-- Whether the bytes of a span are exactly `t`. -/
def spells (x : Span) (t : Text) : Except Breach Bool := do
  return (← cut s x) == t

/-- Whether the word at position `i` is `w`. -/
def isWord (i : Nat) (w : Text) : Except Breach Bool :=
  match s.word? i with
  | none => .ok false
  | some x => spells s x w

/-- The key whose word begins at position `i`. -/
def key? (i : Nat) : Seek Key := do
  let name ← found (s.word? i)
  let colon ← skipTrivia s name.stop
  guard (s.codeByte? colon = some Byte.colon ∧ s.codeByte? (colon + 1) ≠ some Byte.colon)
  return ⟨name, ← skipTrivia s (colon + 1)⟩

/-- Whether the key at position `i` is named `name`. -/
def isKey (i : Nat) (name : Text) : Except Breach Bool := do
  match ← (key? s i).run with
  | none => return false
  | some key => spells s key.name name

/-- The word of the key whose value begins at position `value`. -/
def keyBefore? (value : Nat) : Except Breach (Option Span) := do
  match ← trimTrivia s 0 value with
  | 0 => return none
  | colon + 1 =>
    if s.codeByte? colon = some Byte.colon then
      let stop ← trimTrivia s 0 colon
      let start := Source.backward s.inWord stop stop
      return if start < stop then some ⟨start, stop⟩ else none
    else return none

/-! ## Braces and entries -/

/-- The first of the `n` positions from `i` on at which the counter of open braces comes back to
zero. -/
def closingFrom : (n i depth : Nat) → Except Breach (Option Nat)
  | 0, _, _ => .ok none
  | n + 1, i, depth =>
    if s.codeByte? i = some Byte.openBrace then do
      closingFrom n (i + 1) (← unsigned (depth + 1))
    else if s.codeByte? i = some Byte.closeBrace then do
      let depth ← unsigned (depth - 1)
      if depth = 0 then return some i else closingFrom n (i + 1) depth
    else closingFrom n (i + 1) depth

/-- The position of the brace that closes the one at position `i`. -/
def closing? (i : Nat) : Seek Nat := OptionT.mk
  (if s.codeByte? i = some Byte.openBrace then closingFrom s (s.size - i) i 0 else .ok none)

/-- The braces that open at position `i`. -/
def braces? (i : Nat) : Seek Braces := do
  return ⟨i, ← closing? s i⟩

/-- The last position below `i` at which a brace opens, `depth` closing braces met on the way being
matched first. -/
def enclosingBelow : (i depth : Nat) → Except Breach (Option Nat)
  | 0, _ => .ok none
  | i + 1, depth =>
    if s.codeByte? i = some Byte.closeBrace then do
      enclosingBelow i (← unsigned (depth + 1))
    else if s.codeByte? i = some Byte.openBrace then
      if depth = 0 then .ok (some i) else do enclosingBelow i (← unsigned (depth - 1))
    else enclosingBelow i depth

/-- The position of the innermost brace that is open before position `i`. -/
def enclosing? (i : Nat) : Except Breach (Option Nat) := enclosingBelow s (min i s.size) 0

/-- The segments of the `n` positions from `i` on, where the segment under way began at `start`
and the depth is `depth`. -/
def segmentsFrom : (n i start : Nat) → (depth : Int) → Except Breach (List Span)
  | 0, i, start, _ => do return [← allow (s.check ⟨start, i⟩)]
  | n + 1, i, start, depth =>
    if s.codeByte? i = some Byte.comma ∧ depth = 0 then do
      return (← allow (s.check ⟨start, i⟩)) :: (← segmentsFrom n (i + 1) (i + 1) 0)
    else do segmentsFrom n (i + 1) start (← signed (depth + s.depthStep i))

/-- The segments between the dividing commas of `start..stop`. -/
def segments (start stop : Nat) : Except Breach (List Span) :=
  if start ≤ stop then segmentsFrom s (stop - start) start start 0
  else do return [← allow (s.check ⟨start, stop⟩)]

/-- The entries of the body `start..stop`. -/
def entries (start stop : Nat) : Except Breach (List Span) := do
  return (← segments s start stop).filterMap s.trimBlank?

/-! ## What passes look for -/

/-- Whether the first key behind the brace at position `i` is `apiKey`. -/
def opensConfiguration (i : Nat) : Except Breach Bool := do
  isKey s (← skipTrivia s (i + 1)) apiKeyField

/-- The flat entry whose name begins at position `i`. -/
def flatEntry? (i : Nat) : Seek FlatEntry := do
  let key ← key? s i
  guard !(← spells s key.name nestedKey)
  let close ← closing? s key.value
  guard (← opensConfiguration s key.value)
  let _ ← cut s ⟨key.value, close + 1⟩
  return ⟨key.name, ⟨key.value, close + 1⟩⟩

/-- The flat entry that makes up all the code of an object's entry. -/
def flatIn? (entry : Span) : Seek FlatEntry := do
  let start ← skipTrivia s entry.start
  let stop ← trimTrivia s entry.start entry.stop
  let e ← flatEntry? s start
  guard (e.span.stop = stop)
  return e

/-- The flat entries of an object. -/
def flatEntriesOf (b : Braces) : Except Breach (List FlatEntry) := do
  let entries ← entries s (b.opening + 1) b.closing
  return (← entries.mapM fun entry => (flatIn? s entry).run).filterMap id

/-- Whether position `i` is directly inside a configuration. -/
def inConfiguration (i : Nat) : Except Breach Bool := do
  match ← enclosing? s i with
  | none => return false
  | some brace =>
    if ← opensConfiguration s brace then return true
    match ← keyBefore? s brace with
    | none => return false
    | some name => spells s name nestedKey

/-- The entry read from the environment whose name begins at position `i`. -/
def envEntry? (i : Nat) : Seek EnvEntry := do
  let key ← key? s i
  let name ← cut s key.name
  guard (!Text.sameIgnoringCase name apiKeyField && name != nestedKey)
  let before ← liftM (precedingCode? s i)
  guard (before ≠ some Byte.question)
  guard (← isWord s key.value (.ofString "process"))
  guard (environment.isPrefixOf (← cut s ⟨key.value, s.size⟩))
  let var ← found (s.word? (key.value + environment.length))
  guard !(← inConfiguration s i)
  let var := if s.isAsserted var.stop then ⟨var.start, var.stop + 1⟩ else var
  let _ ← cut s var
  return ⟨key.name, var⟩

/-- The braces of the `providers` block whose key is at position `i`. -/
def block? (i : Nat) : Seek Braces := do
  guard (← isWord s i providersKey)
  let key ← key? s i
  braces? s key.value

/-- The object behind the word `return` at position `i`. -/
def returned? (i : Nat) : Seek Braces := do
  guard (← isWord s i (.ofString "return"))
  braces? s (← skipTrivia s (i + 6))

/-- The position behind the type annotation that may begin at position `i`. -/
def afterAnnotation? (i : Nat) : Seek Nat :=
  if s.codeByte? i = some Byte.colon then do
    let type ← found (s.word? (← skipTrivia s (i + 1)))
    skipTrivia s type.stop
  else return i

/-- The object that the `const` declaration at position `i` gives to its name. -/
def declared? (i : Nat) : Seek Braces := do
  guard (← isWord s i (.ofString "const"))
  let name ← found (s.word? (← skipTrivia s (i + 5)))
  let equals ← afterAnnotation? s (← skipTrivia s name.stop)
  guard (s.codeByte? equals = some Byte.equals)
  guard (s.codeByte? (equals + 1) ≠ some Byte.equals)
  guard (s.codeByte? (equals + 1) ≠ some Byte.greater)
  braces? s (← skipTrivia s (equals + 1))

/-- An object introduced at position `i`, as a find, if it has a flat entry. -/
def objectHit? (i : Nat) (b : Braces) : Seek (List Hit × Nat) := do
  let _ ← liftM (allow (s.lineIndent i))
  guard !(← flatEntriesOf s b).isEmpty
  return ([.object i b], b.closing + 1)

/-- The finds among the `n` positions from `i` on. -/
def sweep {α : Type} (find : Nat → Seek (List α × Nat)) :
    (n i resume : Nat) → Except Breach (List α)
  | 0, _, _ => .ok []
  | n + 1, i, resume =>
    if i < resume then sweep find n (i + 1) resume
    else do
      match ← (find i).run with
      | some (found, next) => return found ++ (← sweep find n (i + 1) next)
      | none => sweep find n (i + 1) resume

/-- The `providers` blocks with a flat entry that begin at or behind `start` and end before
`stop`. -/
def blockHits (start stop : Nat) : Except Breach (List Hit) :=
  sweep (fun i => do
    let b ← block? s i
    guard (b.closing < stop)
    objectHit? s i b) (stop - start) start start

/-- What a pass finds at position `i`, and where its sweep goes on. -/
def find? (i : Nat) : Pass → Seek (List Hit × Nat)
  | .simpleInline => do
    let e ← flatEntry? s i
    return ([.flat e], e.span.stop)
  | .providersBlock => do objectHit? s i (← block? s i)
  | .envAssignment => do
    let e ← envEntry? s i
    return ([.env e], e.span.stop)
  | .returnLiteral => do objectHit? s i (← returned? s i)
  | .constLiteral => do
    let b ← declared? s i
    return (← blockHits s (b.opening + 1) b.closing, b.closing + 1)

end

/-! ## Passes and pipelines -/

/-- A pass carried out on a text. -/
def apply (p : Pass) (t : Text) : Except Breach PassResult := do
  let s ← classify t
  let hits ← sweep (fun i => find? s i p) s.size 0 0
  let edits ← allow (hits.mapM (Hit.edit s))
  return ⟨← allow (s.splice edits), edits⟩

/-- The passes carried out one after the other. -/
def runPasses : List Pass → Text → Except Breach Migration
  | [], t => .ok ⟨t, []⟩
  | p :: ps, t => do
    let out ← apply p t
    let rest ← runPasses ps out.text
    return ⟨rest.text, ⟨p, out.edits⟩ :: rest.stages⟩

/-- A pipeline carried out on a text. -/
def run (p : Pipeline) (t : Text) : Except Breach Migration := runPasses p.passes t

/-- Whether the text has the key `key` with an object behind it at one of the `n` positions from `i`
on. -/
def hasObjectKey (key t : Text) : (n i : Nat) → Except Breach Bool
  | 0, _ => .ok false
  | n + 1, i => do
    if key.isPrefixOf (t.drop i) && !(i != 0 && t[i - 1]?.any Byte.isWord) then
      if (← rest t (i + key.length)).opensObject then return true
    hasObjectKey key t n (i + 1)

/-- A text brought into the nested shape by a pipeline. -/
def migrate (p : Pipeline) (t : Text) : Except Breach Outcome := do
  if ← hasObjectKey nestedKey t t.length 0 then
    if ← hasObjectKey providersKey t t.length 0 then return .alreadyMigrated
  let m ← run p t
  return if m.text = t then .unchanged else .updated m

end Checked

end ProviderNest
