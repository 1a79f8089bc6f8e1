import ProviderNest.Entry.Flat

/-!
# Entries read from the environment

`Source.envEntry?` recognises `name: process.env.VAR`, a provider whose key is read straight from
the environment. A non-null assertion behind the variable belongs to it; `!=` is no assertion.
Not recognised are a field `apiKey` in any case of letters, a key `default`, a name right behind a
question mark, and the fields of a configuration.
-/

namespace ProviderNest

/-- Where an entry read from the environment stands: its name, and the variable with its
assertion. -/
structure EnvEntry where
  name : Span
  var : Span
  deriving DecidableEq, Repr

/-- Everything from the name to the end of the variable. -/
def EnvEntry.span (e : EnvEntry) : Span := ⟨e.name.start, e.var.stop⟩

namespace Source

variable (s : Source)

/-- Whether position `i` is directly inside a configuration: the braces around it begin with
`apiKey` or are the value of a `default` key. -/
def inConfiguration (i : Nat) : Bool :=
  (s.enclosing? i).any fun brace =>
    s.opensConfiguration brace ||
      (s.keyBefore? brace).any fun name => s.spells name nestedKey

/-- Whether a variable that ends at position `i` has a non-null assertion behind it. -/
def isAsserted (i : Nat) : Bool :=
  s.codeByte? i == some Byte.bang && s.codeByte? (i + 1) != some Byte.equals

/-- The entry read from the environment whose name begins at position `i`. -/
def envEntry? (i : Nat) : Option EnvEntry := do
  let key ← s.key? i
  guard (!Text.sameIgnoringCase (s.bytes key.name) apiKeyField && !s.spells key.name nestedKey)
  guard (s.precedingCode? i ≠ some Byte.question)
  guard (s.isWord key.value (.ofString "process") && s.spellsAt key.value environment)
  let var ← s.word? (key.value + environment.length)
  guard (!s.inConfiguration i)
  return ⟨key.name, if s.isAsserted var.stop then ⟨var.start, var.stop + 1⟩ else var⟩

/-- The entry with its configuration written out. -/
def readEnv (e : EnvEntry) : Except Fault Entry := do
  return .ofEnv (← s.cut e.name) (← s.cut e.var)

end Source

end ProviderNest
