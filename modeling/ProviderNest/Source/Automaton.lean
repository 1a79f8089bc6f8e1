import ProviderNest.Source.Kind

/-!
# Classification by an automaton

The lexical kinds read off one byte at a time, with a look at the byte behind it. A state says
what the byte in hand belongs to; nothing is measured ahead, so the state after a text decides how
any continuation of it is read.
-/

namespace ProviderNest

/-- What the next byte belongs to. -/
inductive LexState where
  | code
  /-- Inside a literal with this quote. -/
  | quoted (quote : UInt8)
  /-- Behind a backslash in a literal with this quote. -/
  | escaped (quote : UInt8)
  /-- Inside a comment that ends with its line. -/
  | line
  /-- At the star that opens a comment. -/
  | opening
  /-- Inside a comment that ends with `*/`. -/
  | block
  /-- At the slash that closes a comment. -/
  | closing
  deriving DecidableEq, Repr

namespace LexState

/-- The kind of byte `b`, and the state behind it; `next` is the byte that follows. -/
def step (state : LexState) (b : UInt8) (next : Option UInt8) : Kind × LexState :=
  match state with
  | code =>
    if Kind.isQuote b then (.literal, quoted b)
    else if b = Byte.slash ∧ next = some Byte.slash then (.comment, line)
    else if b = Byte.slash ∧ next = some Byte.star then (.comment, opening)
    else (.code, code)
  | quoted q =>
    if b = Byte.backslash then (.literal, escaped q)
    else if b = q then (.literal, code)
    else if b = Byte.newline ∧ q ≠ Byte.backtick then (.code, code)
    else (.literal, quoted q)
  | escaped q => (.literal, quoted q)
  | line => if b = Byte.newline then (.code, code) else (.comment, line)
  | opening => (.comment, block)
  | block =>
    if b = Byte.star ∧ next = some Byte.slash then (.comment, closing) else (.comment, block)
  | closing => (.comment, code)

/-- The kinds of the bytes of a text that is read from a state. -/
def kinds : LexState → Text → List Kind
  | _, [] => []
  | state, b :: r =>
    let after := state.step b r.head?
    after.1 :: kinds after.2 r

end LexState

end ProviderNest
