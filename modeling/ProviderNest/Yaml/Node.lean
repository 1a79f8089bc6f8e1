import ProviderNest.Yaml.Token

/-!
# YAML documents

The tree that the tokens of a text describe. `Node.ofText?` reads a text with at most one document
and tells apart a text without any from one with an empty scalar.
-/

namespace ProviderNest.Yaml

/-- A scalar, which may be `plain`, or a collection. -/
inductive Node where
  | scalar (text : String) (plain : Bool)
  | sequence (items : List Node)
  | mapping (pairs : List (Node × Node))

namespace Node

/-- What stands where nothing is written. -/
def empty : Node := .scalar "" true

/-- Whether the next token is among those given, so that a node before it is empty. -/
def endsAt (tokens : List Token) (ends : List Token) : Bool := tokens.head?.any ends.contains

/-- The tokens of the next entry of a flow collection, behind the comma that all but the first
have. -/
def entryAfter? (first : Bool) (tokens : List Token) : Option (List Token) :=
  if first then some tokens
  else
    match tokens with
    | .flowEntry :: r => some r
    | _ => none

mutual
/-- Reads a node. Block collections are only allowed with `block`, and with `bare` also the entries
of a sequence that has no indentation of its own. -/
def read (block bare : Bool) : (n : Nat) → List Token → Option (Node × List Token)
  | 0, _ => none
  | n + 1, tokens =>
    match tokens with
    | .scalar text plain :: r => some (.scalar text plain, r)
    | .flowSequence :: r => do
      let (items, r) ← readFlowItems true n r
      return (.sequence items, r)
    | .flowMapping :: r => do
      let (pairs, r) ← readFlowPairs true n r
      return (.mapping pairs, r)
    | .blockSequence :: r =>
      if block then do
        let (items, r) ← readBlockItems n r
        return (.sequence items, r)
      else none
    | .blockMapping :: r =>
      if block then do
        let (pairs, r) ← readBlockPairs n r
        return (.mapping pairs, r)
      else none
    | .blockEntry :: _ =>
      if bare then do
        let (items, r) ← readBareItems n tokens
        return (.sequence items, r)
      else none
    | _ => none

/-- Reads a node unless one of the tokens `ends` follows. -/
def readUnless (ends : List Token) (block bare : Bool) :
    (n : Nat) → List Token → Option (Node × List Token)
  | 0, _ => none
  | n + 1, tokens => if endsAt tokens ends then some (empty, tokens) else read block bare n tokens

/-- Reads the value behind a key, if there is one. -/
def readValue (ends : List Token) (block : Bool) :
    (n : Nat) → List Token → Option (Node × List Token)
  | 0, _ => none
  | n + 1, tokens =>
    match tokens with
    | .value :: r => readUnless ends block block n r
    | _ => some (empty, tokens)

/-- Reads the entries of a block sequence and its end. -/
def readBlockItems : (n : Nat) → List Token → Option (List Node × List Token)
  | 0, _ => none
  | n + 1, tokens =>
    match tokens with
    | .blockEntry :: r => do
      let (item, r) ← readUnless [.blockEntry, .blockEnd] true false n r
      let (items, r) ← readBlockItems n r
      return (item :: items, r)
    | .blockEnd :: r => some ([], r)
    | _ => none

/-- Reads the entries of a sequence without indentation of its own. -/
def readBareItems : (n : Nat) → List Token → Option (List Node × List Token)
  | 0, _ => none
  | n + 1, tokens =>
    match tokens with
    | .blockEntry :: r => do
      let (item, r) ← readUnless [.blockEntry, .key, .value, .blockEnd] true false n r
      let (items, r) ← readBareItems n r
      return (item :: items, r)
    | _ => some ([], tokens)

/-- Reads the pairs of a block mapping and its end. -/
def readBlockPairs : (n : Nat) → List Token → Option (List (Node × Node) × List Token)
  | 0, _ => none
  | n + 1, tokens =>
    match tokens with
    | .key :: r => do
      let (key, r) ← readUnless [.key, .value, .blockEnd] true true n r
      let (value, r) ← readValue [.key, .value, .blockEnd] true n r
      let (pairs, r) ← readBlockPairs n r
      return ((key, value) :: pairs, r)
    | .blockEnd :: r => some ([], r)
    | _ => none

/-- Reads the entries of a flow sequence and its end. -/
def readFlowItems (first : Bool) : (n : Nat) → List Token → Option (List Node × List Token)
  | 0, _ => none
  | n + 1, tokens =>
    match tokens with
    | .flowSequenceEnd :: r => some ([], r)
    | _ => do
      let tokens ← entryAfter? first tokens
      match tokens with
      | .flowSequenceEnd :: r => return ([], r)
      | .key :: r =>
        let ends := [Token.value, .flowEntry, .flowSequenceEnd]
        let (key, r) ← if endsAt r ends then some (empty, r.tail) else read false false n r
        let (value, r) ← readValue [.flowEntry, .flowSequenceEnd] false n r
        let (items, r) ← readFlowItems false n r
        return (.mapping [(key, value)] :: items, r)
      | _ =>
        let (item, r) ← read false false n tokens
        let (items, r) ← readFlowItems false n r
        return (item :: items, r)

/-- Reads the pairs of a flow mapping and its end. -/
def readFlowPairs (first : Bool) : (n : Nat) → List Token → Option (List (Node × Node) × List Token)
  | 0, _ => none
  | n + 1, tokens =>
    match tokens with
    | .flowMappingEnd :: r => some ([], r)
    | _ => do
      let tokens ← entryAfter? first tokens
      match tokens with
      | .flowMappingEnd :: r => return ([], r)
      | .key :: r =>
        let (key, r) ← readUnless [.value, .flowEntry, .flowMappingEnd] false false n r
        let (value, r) ← readValue [.flowEntry, .flowMappingEnd] false n r
        let (pairs, r) ← readFlowPairs false n r
        return ((key, value) :: pairs, r)
      | _ =>
        let (key, r) ← read false false n tokens
        let (pairs, r) ← readFlowPairs false n r
        return ((key, empty) :: pairs, r)
end

/-- Reads the content of a document behind its mark. -/
def readDocument (n : Nat) (tokens : List Token) : Option (Node × List Token) :=
  readUnless [.documentStart, .documentEnd, .streamEnd] true false n tokens

/-- The document of the tokens of a text, if it has one. -/
def ofTokens? (tokens : List Token) : Option (Option Node) := do
  let fuel := 4 * tokens.length + 4
  match tokens with
  | .streamEnd :: _ => return none
  | .documentStart :: r =>
    let (node, r) ← readDocument fuel r
    guard (r.dropWhile (· = .documentEnd) = [.streamEnd])
    return some node
  | _ =>
    let (node, r) ← read true false fuel tokens
    guard (r.dropWhile (· = .documentEnd) = [.streamEnd])
    return some node

/-- The document of a text, if it has one; more than one is refused. -/
def ofText? (t : String) : Option (Option Node) := do ofTokens? (← Token.scan? t.toList)

end Node

end ProviderNest.Yaml
