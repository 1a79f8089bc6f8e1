import ProviderNest.Entry.Basic
import ProviderNest.Pipeline
import ProviderNest.Text.Blank

/-!
# Migrated texts

A text counts as migrated if it has a `default: {` and a `providers: {` anywhere, with any blank
characters around the colon and no word byte before the key. The test looks at the bytes alone, so
a key in a comment counts too. `migrate` leaves a migrated text as it is and tells apart a run that
changed the text from one that did not.
-/

namespace ProviderNest

namespace Text

/-- Whether the text begins with a colon and an opening brace, past blank characters. -/
def opensObject (t : Text) : Bool :=
  match trimLeft t with
  | b :: r => b == Byte.colon && (trimLeft r).head? == some Byte.openBrace
  | [] => false

/-- Whether the text, which follows the byte `before`, has the key `key` with an object behind
it. -/
def hasObjectKey (key : Text) : (before : Option UInt8) → Text → Bool
  | _, [] => false
  | before, b :: r =>
    (!before.any Byte.isWord && (after? key (b :: r)).any opensObject) ||
      hasObjectKey key (some b) r

/-- Whether the text has the nested shape already. -/
def isMigrated (t : Text) : Bool :=
  hasObjectKey nestedKey none t && hasObjectKey providersKey none t

end Text

/-- What became of a text. -/
inductive Outcome where
  | alreadyMigrated
  | unchanged
  | updated (migration : Migration)
  deriving DecidableEq, Repr

/-- A text brought into the nested shape by a pipeline. -/
def migrate (p : Pipeline) (t : Text) : Except Fault Outcome :=
  if t.isMigrated then .ok .alreadyMigrated
  else do
    let m ← p.run t
    return if m.text = t then .unchanged else .updated m

end ProviderNest
