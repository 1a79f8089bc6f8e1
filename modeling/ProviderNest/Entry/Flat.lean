import ProviderNest.Entry.Basic
import ProviderNest.Source.Brace
import ProviderNest.Source.Cut
import ProviderNest.Source.Word

/-!
# Flat entries in a source text

`Source.flatEntry?` recognises `name: { apiKey: … }`: a key whose value is a closed object with
`apiKey` as its first key. Nothing is asked of the rest of the object. An entry that is named
`default` is the inside of a nested one and is not flat.
-/

namespace ProviderNest

/-- Where a flat entry stands: its name, and its body with the braces. -/
structure FlatEntry where
  name : Span
  body : Span
  deriving DecidableEq, Repr

/-- Everything from the name to the closing brace. -/
def FlatEntry.span (e : FlatEntry) : Span := ⟨e.name.start, e.body.stop⟩

namespace Source

variable (s : Source)

/-- Whether the first key behind the brace at position `i` is `apiKey`. -/
def opensConfiguration (i : Nat) : Bool := s.isKey (s.skipTrivia (i + 1)) apiKeyField

/-- The flat entry whose name begins at position `i`. -/
def flatEntry? (i : Nat) : Option FlatEntry := do
  let key ← s.key? i
  guard (!s.spells key.name nestedKey)
  let close ← s.closing? key.value
  guard (s.opensConfiguration key.value)
  return ⟨key.name, ⟨key.value, close + 1⟩⟩

/-- Every flat entry of the text, those inside others included. -/
def flatEntries : List FlatEntry := (List.range s.size).filterMap s.flatEntry?

/-- The name and the body of a flat entry. -/
def readFlat (e : FlatEntry) : Except Fault Entry := do
  return ⟨← s.cut e.name, ← s.cut e.body⟩

end Source

end ProviderNest
