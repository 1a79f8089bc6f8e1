import ProviderNest.Text.Basic

/-!
# Blank characters

The characters with the Unicode property White_Space. Trimming by them is wider than skipping the
white space between tokens (`Byte.isSpace`): it knows the vertical tab and the blanks outside
ASCII. A blank is recognised by its UTF-8 form, so trimming needs no decoding: in well-formed
UTF-8 the form of a character begins and ends nowhere but at that character's own ends.
-/

namespace ProviderNest.Text

/-- The characters with the property White_Space. -/
def blanks : List Char :=
  ['\t', '\n', '\x0b', '\x0c', '\r', ' ', '\u0085', '\u00a0', '\u1680', '\u2000', '\u2001',
   '\u2002', '\u2003', '\u2004', '\u2005', '\u2006', '\u2007', '\u2008', '\u2009', '\u200a',
   '\u2028', '\u2029', '\u202f', '\u205f', '\u3000']

/-- The UTF-8 forms of the blank characters. -/
def blankForms : List Text := blanks.map String.utf8EncodeChar

/-- What follows `front` in `t`, if `t` begins with it. -/
def after? (front t : Text) : Option Text :=
  if front.isPrefixOf t then some (t.drop front.length) else none

/-- The text after its first character, if that is blank. -/
def afterBlank? (t : Text) : Option Text :=
  blankForms.findSome? fun form => after? form t

/-- At most `n` leading blank characters are dropped. -/
def dropBlanks : Nat → Text → Text
  | 0, t => t
  | n + 1, t =>
    match afterBlank? t with
    | some r => dropBlanks n r
    | none => t

/-- The text without its leading blank characters. -/
def trimLeft (t : Text) : Text := dropBlanks t.length t

end ProviderNest.Text
