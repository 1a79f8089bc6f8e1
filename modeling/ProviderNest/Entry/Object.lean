import ProviderNest.Entry.Flat

/-!
# Objects of entries

`Source.rebuild` writes an object anew with one entry to a line: a flat entry takes the nested
shape, and every other entry is kept byte for byte, in the same order. An entry counts as flat if
nothing but trivia stands around the flat shape in it (`Source.flatIn?`).
-/

namespace ProviderNest

/-- The positions of an opening brace and of the brace that closes it. -/
structure Braces where
  opening : Nat
  closing : Nat
  deriving DecidableEq, Repr

/-- Everything between the braces and the braces themselves. -/
def Braces.span (b : Braces) : Span := ⟨b.opening, b.closing + 1⟩

namespace Source

variable (s : Source)

/-- The braces that open at position `i`. -/
def braces? (i : Nat) : Option Braces := (s.closing? i).map fun close => ⟨i, close⟩

/-- The flat entry that makes up all the code of an object's entry. -/
def flatIn? (entry : Span) : Option FlatEntry :=
  (s.flatEntry? (s.skipTrivia entry.start)).filter fun e =>
    e.span.stop == s.trimTrivia entry.start entry.stop

/-- The flat entries of an object. -/
def flatEntriesOf (b : Braces) : List FlatEntry :=
  (s.entries (b.opening + 1) b.closing).filterMap s.flatIn?

/-- An object's entry on a line indented by `indent`, with the nested shape for a flat one. -/
def rebuildEntry (indent : Text) (entry : Span) : Except Fault Text :=
  match s.flatIn? entry with
  | none => s.cut entry
  | some e => do
    let before ← s.cut ⟨entry.start, e.span.start⟩
    let flat ← s.readFlat e
    let behind ← s.cut ⟨e.span.stop, entry.stop⟩
    return before ++ flat.nested indent ++ behind

/-- The object with each flat entry in the nested shape, for a line indented by `indent`. -/
def rebuild (b : Braces) (indent : Text) : Except Fault Text := do
  let inner := indent ++ .ofString "  "
  let entries ← s.cutEntries (b.opening + 1) b.closing
  let lines ← entries.mapM fun entry => do
    return inner ++ (← s.rebuildEntry inner entry) ++ .ofString ",\n"
  return .ofString "\x7b\n" ++ lines.flatten ++ indent ++ .ofString "\x7d"

end Source

end ProviderNest
