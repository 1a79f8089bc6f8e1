/-!
# Reading a YAML text

A cursor is a place in a text: what is left to read, and the offset, the line and the column at
which it begins. Columns count characters, and offsets the bytes of the text in UTF-8. Line breaks
come in several spellings, of which the usual ones all count as one newline; `Gap` is what stands
between two words of a scalar, and `Gap.folded` what remains of it.
-/

namespace ProviderNest.Yaml

/-- A space or a tab. -/
def isBlank (c : Char) : Bool := c == ' ' || c == '\t'

/-- A character that ends a line. -/
def isBreak (c : Char) : Bool :=
  c == '\n' || c == '\r' || c == '\u0085' || c == '\u2028' || c == '\u2029'

/-- Whether a text begins with a blank or a line break, or is at its end. -/
def atGap : List Char → Bool
  | [] => true
  | c :: _ => isBlank c || isBreak c

/-- A character that may occur in a YAML text. -/
def isAllowed (c : Char) : Bool :=
  let n := c.toNat
  c == '\t' || c == '\n' || c == '\r' || (0x20 ≤ n && n ≤ 0x7E) || n == 0x85 ||
    (0xA0 ≤ n && n ≤ 0xFFFD) || 0x10000 ≤ n

/-- The size in bytes of a text in UTF-8. -/
def byteCount (t : List Char) : Nat := t.foldl (fun n c => n + c.utf8Size) 0

/-- A place in a text. -/
structure Cursor where
  rest : List Char
  offset : Nat
  line : Nat
  column : Nat

namespace Cursor

/-- The start of a text. -/
def ofText (t : List Char) : Cursor := ⟨t, 0, 0, 0⟩

/-- The place `n` characters later on the same line. -/
def advance (c : Cursor) (n : Nat) : Cursor :=
  ⟨c.rest.drop n, c.offset + byteCount (c.rest.take n), c.line, c.column + n⟩

/-- The place behind the characters for which `p` holds. -/
def skipWhile (c : Cursor) (p : Char → Bool) : Cursor := c.advance (c.rest.takeWhile p).length

/-- The place behind a byte order mark that begins a line here. -/
def skipOrderMark (c : Cursor) : Cursor :=
  if c.column == 0 && c.rest.head? == some '\ufeff' then c.advance 1 else c

/-- The start of the next line, for a place at a line break. -/
def nextLine (c : Cursor) : Cursor :=
  match c.rest with
  | '\r' :: '\n' :: r => ⟨r, c.offset + 2, c.line + 1, 0⟩
  | x :: r => ⟨r, c.offset + x.utf8Size, c.line + 1, 0⟩
  | [] => c

/-- Whether the mark `---` or `...`, given by its character, begins a line here. -/
def atMark (c : Cursor) (mark : Char) : Bool :=
  c.column == 0 && c.rest.take 3 == [mark, mark, mark] && atGap (c.rest.drop 3)

/-- Whether a line that begins or ends a document starts here. -/
def atDocument (c : Cursor) : Bool := c.atMark '-' || c.atMark '.'

end Cursor

/-- Blanks and line breaks between two words: the blanks if no line ends, and the line breaks, each
as the character that it counts as. In an `escaped` gap a line break was escaped before it. -/
structure Gap where
  blanks : List Char
  breaks : List Char
  escaped : Bool

namespace Gap

/-- Nothing between two words. -/
def none : Gap := ⟨[], [], false⟩

/-- Whether a line ends in the gap. -/
def endsLine (g : Gap) : Bool := g.escaped || !g.breaks.isEmpty

/-- What remains of a gap: a single newline becomes a space, of several the first is dropped. -/
def folded (g : Gap) : List Char :=
  if g.escaped then g.breaks
  else
    match g.breaks with
    | [] => g.blanks
    | ['\n'] => [' ']
    | '\n' :: more => more
    | breaks => breaks

/-- The character that a line break counts as. -/
def breakChar (c : Char) : Char := if c == '\u2028' || c == '\u2029' then c else '\n'

/-- Reads a gap in at most `n` steps. A tab before column `margin` on a later line is refused. -/
def read (margin : Int) : (n : Nat) → Cursor → Gap → Option (Cursor × Gap)
  | 0, c, g => some (c, g)
  | n + 1, c, g =>
    match c.rest with
    | [] => some (c, g)
    | x :: _ =>
      if isBreak x then
        read margin n c.nextLine { g with blanks := [], breaks := g.breaks ++ [breakChar x] }
      else if !isBlank x then some (c, g)
      else if !g.endsLine then read margin n (c.advance 1) { g with blanks := g.blanks ++ [x] }
      else if x == '\t' && c.column < margin then Option.none
      else read margin n (c.advance 1) g

end Gap

end ProviderNest.Yaml
