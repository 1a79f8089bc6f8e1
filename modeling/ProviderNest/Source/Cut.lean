import ProviderNest.Source.Segment

/-!
# Checked access

The functions of the modules before this one answer at every position. Those here make sure that
what is asked for is there: a cut lies inside the text, its ends are in order, and neither falls
inside a character. `Fault` says what was wrong.
-/

namespace ProviderNest

/-- Why a text could not be cut. -/
inductive Fault where
  /-- A position lies outside the text. -/
  | outOfRange
  /-- The start of a span lies behind its end. -/
  | reversed
  /-- A position lies inside a character. -/
  | insideCharacter
  /-- A replacement begins before the one before it ends. -/
  | overlap
  deriving DecidableEq, Repr

namespace Source

variable (s : Source)

/-- Whether a character begins at position `i`, or the text ends there. -/
def isBoundary (i : Nat) : Bool :=
  i == 0 || i == s.size || (s.byte? i).any fun b => !Byte.isContinuation b

/-- The span itself, if the text can be cut at its ends. -/
def check (span : Span) : Except Fault Span :=
  if span.stop < span.start then .error .reversed
  else if s.size < span.stop then .error .outOfRange
  else if s.isBoundary span.start && s.isBoundary span.stop then .ok span
  else .error .insideCharacter

/-- The bytes of a span. -/
def cut (span : Span) : Except Fault Text := do
  return s.bytes (← s.check span)

/-- The position at which the line of position `i` begins. -/
def lineStart (i : Nat) : Nat := backward (fun j => s.byte? j != some Byte.newline) i i

/-- The spaces and tabs at the start of the line of position `i`. -/
def indentSpan (i : Nat) : Span :=
  let start := s.lineStart i
  ⟨start, forward (fun j => s.byte? j == some Byte.space || s.byte? j == some Byte.tab)
    (s.size - start) start⟩

/-- The indentation of the line of position `i`, which must be a position at which the text can
be cut. -/
def lineIndent (i : Nat) : Except Fault Text := do
  let _ ← s.check ⟨0, i⟩
  s.cut (s.indentSpan i)

/-- The entries of a body inside the text, each segment of which must be one that can be cut
out. -/
def cutEntries (start stop : Nat) : Except Fault (List Span) := do
  if s.size < stop then throw .outOfRange
  let segments ← (s.segments start stop).mapM s.check
  return segments.filterMap s.trimBlank?

/-- The trimmed end of a span; a byte is only looked up inside the text. -/
def cutTrivia (start stop : Nat) : Except Fault Nat :=
  if s.size < stop ∧ start < stop then .error .outOfRange else .ok (s.trimTrivia start stop)

end Source

end ProviderNest
