import ProviderNest.Entry.Environment
import ProviderNest.Entry.Object

/-!
# Edits

A `Hit` is something in a source text that has to be nested: one entry, or an object with flat
entries in it. Its `Edit` replaces its span by the nested shape, and `Source.splice` carries out a
list of edits from left to right, refusing one that reaches back into the edit before it.
-/

namespace ProviderNest

/-- Something that has to be nested. The `anchor` of an object is the position of the word that
introduces it; the indentation of that word's line is the indentation of the result. -/
inductive Hit where
  | flat (entry : FlatEntry)
  | env (entry : EnvEntry)
  | object (anchor : Nat) (braces : Braces)
  deriving DecidableEq, Repr

namespace Hit

/-- The part of the text that is replaced. -/
def span : Hit → Span
  | flat e => e.span
  | env e => e.span
  | object _ b => b.span

/-- The position whose line gives the indentation. -/
def anchor : Hit → Nat
  | flat e => e.name.start
  | env e => e.name.start
  | object a _ => a

/-- The number of entries that take the nested shape. -/
def count (s : Source) : Hit → Nat
  | flat _ => 1
  | env _ => 1
  | object _ b => (s.flatEntriesOf b).length

/-- The text that takes the place of the hit on a line indented by `indent`. -/
def nested (s : Source) (indent : Text) : Hit → Except Fault Text
  | flat e => do return (← s.readFlat e).nested indent
  | env e => do return (← s.readEnv e).nested indent
  | object _ b => s.rebuild b indent

end Hit

/-- The replacement of a span by a text in which `count` entries are newly nested. -/
structure Edit where
  anchor : Nat
  span : Span
  text : Text
  count : Nat
  deriving DecidableEq, Repr

/-- The edit that nests a hit. -/
def Hit.edit (s : Source) (h : Hit) : Except Fault Edit := do
  let indent ← s.lineIndent h.anchor
  return ⟨h.anchor, h.span, ← h.nested s indent, h.count s⟩

namespace Source

variable (s : Source)

/-- The text from position `cursor` on with the edits carried out. -/
def spliceFrom : (cursor : Nat) → List Edit → Except Fault Text
  | cursor, [] => s.cut ⟨cursor, s.size⟩
  | cursor, e :: es => do
    if e.span.start < cursor then throw .overlap
    let kept ← s.cut ⟨cursor, e.span.start⟩
    let rest ← spliceFrom e.span.stop es
    return kept ++ e.text ++ rest

/-- The text with the edits carried out. -/
def splice (edits : List Edit) : Except Fault Text := s.spliceFrom 0 edits

end Source

end ProviderNest
