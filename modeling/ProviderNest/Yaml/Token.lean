import ProviderNest.Yaml.Scalar

/-!
# Tokens of a YAML text

`Token.scan?` divides a text into tokens. Block collections are made of indentation: a token that
begins further to the right opens one, and one further to the left closes those it leaves. A key
is only known as such when its colon comes, so each place where a key may begin is remembered as a
`Candidate`; the colon has to come on the same line and within 1024 bytes. Anchors, aliases, tags,
directives and block scalars are not read: a text with one is refused like any text that is not
YAML.
-/

namespace ProviderNest.Yaml

/-- A token. -/
inductive Token where
  | documentStart
  | documentEnd
  | blockSequence
  | blockMapping
  | blockEnd
  | flowSequence
  | flowSequenceEnd
  | flowMapping
  | flowMappingEnd
  | blockEntry
  | flowEntry
  | key
  | value
  | scalar (text : String) (plain : Bool)
  | streamEnd
  deriving DecidableEq, Repr

/-- A place where a key may begin: its place in the text and among the tokens. It is `required` at
the column of the mapping around it, where nothing but a key can stand. -/
structure Candidate where
  required : Bool
  token : Nat
  offset : Nat
  line : Nat
  column : Nat

/-- The state of a scan. The columns of the block collections that are open are in `indent` and
`indents`, innermost first, down to -1 for none; there is one candidate for the block context and
one for each flow collection that is open, innermost first. -/
structure Scan where
  cursor : Cursor
  indent : Int
  indents : List Int
  keyAllowed : Bool
  candidates : List (Option Candidate)
  tokens : Array Token

namespace Scan

/-- The state at the start of a text. -/
def start (t : List Char) : Scan := ⟨.ofText t, -1, [], true, [none], #[]⟩

section
variable (s : Scan)

/-- Whether a flow collection is open. -/
def inFlow : Bool := 1 < s.candidates.length

/-- One more token. -/
def push (t : Token) : Scan := { s with tokens := s.tokens.push t }

/-- One more token, before the one at a place. -/
def insert (t : Token) (place : Nat) : Scan :=
  { s with tokens := (s.tokens.toList.take place ++ t :: s.tokens.toList.drop place).toArray }

/-- One more token, and the `n` characters that it is made of. -/
def take (t : Token) (n : Nat) : Scan := { s.push t with cursor := s.cursor.advance n }

/-- No key begins at the candidate of this level; a required one is missed. -/
def dropCandidate : Option Scan :=
  match s.candidates with
  | some c :: r => if c.required then none else some { s with candidates := none :: r }
  | _ => some s

/-- A key may begin here. -/
def saveCandidate : Option Scan :=
  if s.keyAllowed then do
    let s ← s.dropCandidate
    let c := s.cursor
    let required := !s.inFlow && s.indent == (c.column : Int)
    return { s with
      candidates := some ⟨required, s.tokens.size, c.offset, c.line, c.column⟩ :: s.candidates.tail }
  else some s

/-- Candidates whose colon comes too late are dropped; a required one is missed. -/
def dropStale : Option Scan := do
  let candidates ← s.candidates.mapM fun
    | none => some none
    | some c =>
      if c.line < s.cursor.line || c.offset + 1024 < s.cursor.offset then
        if c.required then none else some none
      else some (some c)
  return { s with candidates }

/-- A block collection begins at a column further to the right: its token goes to `place`. -/
def openBlock (column : Nat) (place : Nat) (t : Token) : Scan :=
  if !s.inFlow && s.indent < column then
    { s.insert t place with indent := column, indents := s.indent :: s.indents }
  else s

end

/-- The number of block collections that end before a column, and those that are left. -/
def leave (column : Int) : (indent : Int) → (indents : List Int) → Nat × Int × List Int
  | indent, [] => (0, indent, [])
  | indent, i :: is =>
    if column < indent then
      let (n, rest) := leave column i is
      (n + 1, rest)
    else (0, indent, i :: is)

/-- The block collections that end before a column are closed. -/
def closeBlocks (s : Scan) (column : Int) : Scan :=
  if s.inFlow then s
  else
    let (n, indent, indents) := leave column s.indent s.indents
    { s with indent, indents, tokens := s.tokens ++ (List.replicate n Token.blockEnd).toArray }

/-- Goes to the next token, past blanks, comments and line breaks, in at most `n` lines. A tab is
only passed over where no key may begin; a byte order mark is at the start of any line, and takes
one column there. -/
def skipGap : (n : Nat) → Scan → Scan
  | 0, s => s
  | n + 1, s =>
    let c := s.cursor.skipOrderMark
    let c := c.skipWhile fun x => x == ' ' || ((s.inFlow || !s.keyAllowed) && x == '\t')
    let c := if c.rest.head? == some '#' then c.skipWhile (!isBreak ·) else c
    if c.rest.head?.any isBreak then
      skipGap n { s with cursor := c.nextLine, keyAllowed := s.keyAllowed || !s.inFlow }
    else { s with cursor := c }

section
variable (s : Scan)

/-- The end of the text. -/
def finish : Option Scan := do
  let s ← (s.closeBlocks (-1)).dropCandidate
  return s.push .streamEnd

/-- The mark before or behind a document. -/
def document (t : Token) : Option Scan := do
  let s ← (s.closeBlocks (-1)).dropCandidate
  return { s.take t 3 with keyAllowed := false }

/-- The bracket that opens a flow collection. -/
def openFlow (t : Token) : Option Scan := do
  let s ← s.saveCandidate
  return { s.take t 1 with candidates := none :: s.candidates, keyAllowed := true }

/-- The bracket that closes a flow collection. -/
def closeFlow (t : Token) : Option Scan := do
  let s ← s.dropCandidate
  let candidates := if s.inFlow then s.candidates.tail else s.candidates
  return { s.take t 1 with candidates, keyAllowed := false }

/-- The comma between the entries of a flow collection. -/
def flowEntry : Option Scan := do
  let s ← s.dropCandidate
  return { s.take .flowEntry 1 with keyAllowed := true }

/-- The dash before an entry of a block sequence. -/
def blockEntry : Option Scan := do
  guard (s.inFlow || s.keyAllowed)
  let s ← (s.openBlock s.cursor.column s.tokens.size .blockSequence).dropCandidate
  return { s.take .blockEntry 1 with keyAllowed := true }

/-- The question mark before a key. -/
def key : Option Scan := do
  guard (s.inFlow || s.keyAllowed)
  let s ← (s.openBlock s.cursor.column s.tokens.size .blockMapping).dropCandidate
  return { s.take .key 1 with keyAllowed := !s.inFlow }

/-- The colon before a value: what the candidate began is a key. -/
def value : Option Scan :=
  match s.candidates with
  | some c :: r =>
    let s := { s.insert .key c.token with candidates := none :: r }
    let s := s.openBlock c.column c.token .blockMapping
    some { s.take .value 1 with keyAllowed := false }
  | _ => do
    guard (s.inFlow || s.keyAllowed)
    let s := s.openBlock s.cursor.column s.tokens.size .blockMapping
    return { s.take .value 1 with keyAllowed := !s.inFlow }

/-- A scalar in quotes. -/
def quotedScalar (quote : Char) : Option Scan := do
  let s ← s.saveCandidate
  let (cursor, text) ← quoted quote (s.cursor.rest.length + 1) (s.cursor.advance 1) []
  return { s.push (.scalar (String.ofList text) false) with cursor, keyAllowed := false }

/-- A scalar without quotes. -/
def plainScalar : Option Scan := do
  let s ← s.saveCandidate
  let (cursor, text, lineEnded) ←
    plain s.inFlow (s.indent + 1) (s.cursor.rest.length + 1) s.cursor [] .none
  return { s.push (.scalar (String.ofList text) true) with cursor, keyAllowed := lineEnded }

/-- The token that begins with character `c` before the text `r`. -/
def token (c : Char) (r : List Char) : Option Scan :=
  match c with
  | '[' => s.openFlow .flowSequence
  | '{' => s.openFlow .flowMapping
  | ']' => s.closeFlow .flowSequenceEnd
  | '}' => s.closeFlow .flowMappingEnd
  | ',' => s.flowEntry
  | '-' => if atGap r then s.blockEntry else s.plainScalar
  | '?' => if s.inFlow || atGap r then s.key else s.plainScalar
  | ':' => if s.inFlow || atGap r then s.value else s.plainScalar
  | '\'' => s.quotedScalar c
  | '"' => s.quotedScalar c
  | _ => if "#&*!|>%@`\t".toList.contains c then none else s.plainScalar

/-- The next token, and whether it is the last one. -/
def next : Option (Scan × Bool) := do
  let s ← (skipGap (s.cursor.rest.length + 1) s).dropStale
  let s := s.closeBlocks s.cursor.column
  match s.cursor.rest with
  | [] => return (← s.finish, true)
  | c :: r =>
    if s.cursor.atMark '-' then return (← s.document .documentStart, false)
    else if s.cursor.atMark '.' then return (← s.document .documentEnd, false)
    else return (← s.token c r, false)

end

/-- The state after the last token, in at most `n` tokens. -/
def run : (n : Nat) → Scan → Option Scan
  | 0, _ => none
  | n + 1, s => do
    let (s, last) ← s.next
    if last then return s else run n s

end Scan

/-- The tokens of a text. -/
def Token.scan? (t : List Char) : Option (List Token) := do
  guard (t.all isAllowed)
  let s ← Scan.run (t.length + 1) (.start t)
  return s.tokens.toList

end ProviderNest.Yaml
