import ProviderNest.Source.Basic

/-!
# Matching braces with a stack

The braces of the code read from left to right: an opening brace is put on a stack, and a closing
one is paired with the brace on top of it. A closing brace that finds the stack empty is passed
over.
-/

namespace ProviderNest

/-- The pairs found so far, and the braces still open, innermost first. -/
structure Matching where
  pairs : List (Nat × Nat)
  stack : List Nat
  deriving DecidableEq, Repr

namespace Source

variable (s : Source)

/-- The matching after the byte at position `i`. -/
def matchStep (m : Matching) (i : Nat) : Matching :=
  if s.codeByte? i = some Byte.openBrace then { m with stack := i :: m.stack }
  else if s.codeByte? i = some Byte.closeBrace then
    match m.stack with
    | [] => m
    | top :: stack => ⟨(top, i) :: m.pairs, stack⟩
  else m

/-- The matching of the first `n` bytes. -/
def matchingUpTo (n : Nat) : Matching := (List.range n).foldl s.matchStep ⟨[], []⟩

/-- The matching of the whole text. -/
def matching : Matching := s.matchingUpTo s.size

end Source

end ProviderNest
