import ProviderNest.Source.Kind

/-!
# Classified source texts

A `Source` is a text each byte of which carries its lexical kind. Everything that later modules
recognise is read off it by position: `Source.codeByte?` sees the code and nothing else,
`Source.isTrivia` tells what may stand between two tokens. The two walks `Source.forward` and
`Source.backward` are the only loops over positions that stop at the first failure of a test.
-/

namespace ProviderNest

/-- The positions from `start` up to and without `stop`. -/
structure Span where
  start : Nat
  stop : Nat
  deriving DecidableEq, Repr

/-- A byte and what it belongs to. -/
structure Cell where
  byte : UInt8
  kind : Kind
  deriving DecidableEq, Repr

/-- A text with the kind of every byte. -/
structure Source where
  cells : Array Cell

namespace Source

/-- The text with each byte classified. -/
def ofText (t : Text) : Source := ⟨(List.zipWith Cell.mk t (Kind.ofText t)).toArray⟩

section
variable (s : Source)

/-- The number of bytes. -/
def size : Nat := s.cells.size

/-- The text that was classified. -/
def text : Text := s.cells.toList.map Cell.byte

/-- The byte at position `i`. -/
def byte? (i : Nat) : Option UInt8 := s.cells[i]?.map Cell.byte

/-- The byte at position `i`, if it is code. -/
def codeByte? (i : Nat) : Option UInt8 :=
  match s.cells[i]? with
  | some ⟨b, .code⟩ => some b
  | _ => none

/-- Whether the byte at position `i` is code. -/
def isCode (i : Nat) : Bool := (s.codeByte? i).isSome

/-- Whether position `i` may stand between two tokens: a comment or white space in code. -/
def isTrivia (i : Nat) : Bool :=
  match s.cells[i]? with
  | some ⟨_, .comment⟩ => true
  | some ⟨b, .code⟩ => Byte.isSpace b
  | _ => false

/-- Whether the byte at position `i` is code and part of a word. -/
def inWord (i : Nat) : Bool := (s.codeByte? i).any Byte.isWord

/-- The bytes of a span. -/
def bytes (span : Span) : Text := (s.cells.extract span.start span.stop).toList.map Cell.byte

/-- Whether the bytes from position `i` on begin with `t`. -/
def spellsAt : (i : Nat) → (t : Text) → Bool
  | _, [] => true
  | i, b :: t => s.byte? i == some b && spellsAt (i + 1) t

/-- Whether the bytes of a span are exactly `t`. -/
def spells (span : Span) (t : Text) : Bool :=
  span.stop - span.start == t.length && s.spellsAt span.start t

end

/-- From `i` upwards, at most `n` steps, past the positions for which `p` holds. -/
def forward (p : Nat → Bool) : (n i : Nat) → Nat
  | 0, i => i
  | n + 1, i => if p i then forward p n (i + 1) else i

/-- From `i` downwards, at most `n` steps, past the positions for which `p` holds just below. -/
def backward (p : Nat → Bool) : (n i : Nat) → Nat
  | 0, i => i
  | n + 1, i => if p (i - 1) then backward p n (i - 1) else i

section
variable (s : Source)

/-- The first position from `i` on that is not trivia. -/
def skipTrivia (i : Nat) : Nat := forward s.isTrivia (s.size - i) i

/-- The end of `start..stop` after trivia at its end is taken off. -/
def trimTrivia (start stop : Nat) : Nat := backward s.isTrivia (stop - start) stop

/-- The last code byte before position `i`, past trivia. -/
def precedingCode? (i : Nat) : Option UInt8 :=
  match s.trimTrivia 0 i with
  | 0 => none
  | j + 1 => s.codeByte? j

end

end Source

end ProviderNest
