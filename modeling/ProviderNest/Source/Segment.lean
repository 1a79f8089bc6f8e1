import ProviderNest.Source.Basic
import ProviderNest.Text.Blank

/-!
# Entries of an object body

A body is divided at the commas of its code that stand outside all brackets opened in it
(`Source.segments`); each segment, less the blank characters at its ends, is an entry unless
nothing is left (`Source.entries`). Bracket depth is an integer: a body with stray closing brackets
goes below zero, and a comma there does not divide.
-/

namespace ProviderNest.Source

variable (s : Source)

/-- The change of bracket depth at position `i`. -/
def depthStep (i : Nat) : Int :=
  match s.codeByte? i with
  | none => 0
  | some b =>
    if b = Byte.openBrace ∨ b = Byte.openBracket ∨ b = Byte.openParen then 1
    else if b = Byte.closeBrace ∨ b = Byte.closeBracket ∨ b = Byte.closeParen then -1
    else 0

/-- The segments of the `n` positions from `i` on, where the segment under way began at `start`
and the depth is `depth`. -/
def segmentsFrom : (n i start : Nat) → (depth : Int) → List Span
  | 0, i, start, _ => [⟨start, i⟩]
  | n + 1, i, start, depth =>
    if s.codeByte? i = some Byte.comma ∧ depth = 0 then
      ⟨start, i⟩ :: segmentsFrom n (i + 1) (i + 1) 0
    else segmentsFrom n (i + 1) start (depth + s.depthStep i)

/-- The segments between the dividing commas of `start..stop`. -/
def segments (start stop : Nat) : List Span :=
  if start ≤ stop then s.segmentsFrom (stop - start) start start 0 else [⟨start, stop⟩]

/-- The length of the blank character that begins at `i` and ends at or before `stop`, or 0. -/
def blankAt (i stop : Nat) : Nat :=
  match Text.blankForms.find? fun form => i + form.length ≤ stop && s.spellsAt i form with
  | some form => form.length
  | none => 0

/-- The length of the blank character that ends at `i` and begins at or behind `start`, or 0. -/
def blankBefore (start i : Nat) : Nat :=
  match Text.blankForms.find? fun form =>
    start + form.length ≤ i && s.spellsAt (i - form.length) form with
  | some form => form.length
  | none => 0

/-- The first position from `i` to `stop` at which no blank character begins, in at most `n`
steps. -/
def trimBlankStart (stop : Nat) : (n i : Nat) → Nat
  | 0, i => i
  | n + 1, i =>
    match s.blankAt i stop with
    | 0 => i
    | w + 1 => trimBlankStart stop n (i + (w + 1))

/-- The last position from `start` to `i` at which no blank character ends, in at most `n`
steps. -/
def trimBlankStop (start : Nat) : (n i : Nat) → Nat
  | 0, i => i
  | n + 1, i =>
    match s.blankBefore start i with
    | 0 => i
    | w + 1 => trimBlankStop start n (i - (w + 1))

/-- The span without the blank characters at its ends, unless nothing is left. -/
def trimBlank? (span : Span) : Option Span :=
  let start := s.trimBlankStart span.stop (span.stop - span.start) span.start
  let stop := s.trimBlankStop start (span.stop - start) span.stop
  if start < stop then some ⟨start, stop⟩ else none

/-- The entries of the body `start..stop`. -/
def entries (start stop : Nat) : List Span := (s.segments start stop).filterMap s.trimBlank?

end ProviderNest.Source
