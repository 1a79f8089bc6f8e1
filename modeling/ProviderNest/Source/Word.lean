import ProviderNest.Source.Basic

/-!
# Words and keys

A word is a maximal run of word bytes in code; a key is a word, a colon and a value. Keys are read
in both directions: `Source.key?` from the first byte of the word, `Source.keyBefore?` from the
value. A doubled colon after the word makes no key.
-/

namespace ProviderNest

/-- A key: the word, and the position at which its value begins. -/
structure Key where
  name : Span
  value : Nat
  deriving DecidableEq, Repr

namespace Source

variable (s : Source)

/-- The word that begins exactly at position `i`. -/
def word? (i : Nat) : Option Span :=
  if s.inWord i && !(i != 0 && s.inWord (i - 1)) then some ⟨i, forward s.inWord (s.size - i) i⟩
  else none

/-- Whether the word at position `i` is `w`. -/
def isWord (i : Nat) (w : Text) : Bool := (s.word? i).any fun span => s.spells span w

/-- The key whose word begins at position `i`. -/
def key? (i : Nat) : Option Key := do
  let name ← s.word? i
  let colon := s.skipTrivia name.stop
  guard (s.codeByte? colon = some Byte.colon ∧ s.codeByte? (colon + 1) ≠ some Byte.colon)
  return ⟨name, s.skipTrivia (colon + 1)⟩

/-- The word of the key whose value begins at position `value`. -/
def keyBefore? (value : Nat) : Option Span :=
  match s.trimTrivia 0 value with
  | 0 => none
  | colon + 1 =>
    if s.codeByte? colon = some Byte.colon then
      let stop := s.trimTrivia 0 colon
      let start := backward s.inWord stop stop
      if start < stop then some ⟨start, stop⟩ else none
    else none

/-- Whether the key at position `i` is named `name`. -/
def isKey (i : Nat) (name : Text) : Bool := (s.key? i).any fun k => s.spells k.name name

end Source

end ProviderNest
