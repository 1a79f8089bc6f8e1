import ProviderNest.Source.Basic

/-!
# Matching braces

Only braces in code count. `Source.closing?` looks forward for the brace that closes a given one,
`Source.enclosing?` backward for the innermost brace still open. Both count the braces met on the
way that are not yet matched, so nesting may have any depth and stray braces do no harm.
-/

namespace ProviderNest.Source

variable (s : Source)

/-- The first of the `n` positions from `i` on at which a brace closes while `depth` braces opened
on the way are still open. -/
def closingFrom : (n i depth : Nat) → Option Nat
  | 0, _, _ => none
  | n + 1, i, depth =>
    if s.codeByte? i = some Byte.openBrace then closingFrom n (i + 1) (depth + 1)
    else if s.codeByte? i = some Byte.closeBrace then
      match depth with
      | 0 => some i
      | depth + 1 => closingFrom n (i + 1) depth
    else closingFrom n (i + 1) depth

/-- The position of the brace that closes the one at position `i`. -/
def closing? (i : Nat) : Option Nat :=
  if s.codeByte? i = some Byte.openBrace then s.closingFrom (s.size - (i + 1)) (i + 1) 0 else none

/-- The last position below `i` at which a brace opens, `depth` closing braces met on the way
being matched first. -/
def enclosingBelow : (i depth : Nat) → Option Nat
  | 0, _ => none
  | i + 1, depth =>
    if s.codeByte? i = some Byte.closeBrace then enclosingBelow i (depth + 1)
    else if s.codeByte? i = some Byte.openBrace then
      match depth with
      | 0 => some i
      | depth + 1 => enclosingBelow i depth
    else enclosingBelow i depth

/-- The position of the innermost brace that is open before position `i`. -/
def enclosing? (i : Nat) : Option Nat := s.enclosingBelow (min i s.size) 0

end ProviderNest.Source
