/-!
# Bytes with a meaning in source code

Every byte that the rules of this library name is an ASCII character; here each has its name.
A word is made of the bytes for which `Byte.isWord` holds: ASCII letters, digits, `_`, `$`, and
every byte of a character outside ASCII, so that a word in any script stays whole.
-/

namespace ProviderNest.Byte

abbrev tab : UInt8 := 0x09
abbrev newline : UInt8 := 0x0A
abbrev formFeed : UInt8 := 0x0C
abbrev carriageReturn : UInt8 := 0x0D
abbrev space : UInt8 := 0x20
abbrev bang : UInt8 := 0x21
abbrev doubleQuote : UInt8 := 0x22
abbrev dollar : UInt8 := 0x24
abbrev singleQuote : UInt8 := 0x27
abbrev openParen : UInt8 := 0x28
abbrev closeParen : UInt8 := 0x29
abbrev star : UInt8 := 0x2A
abbrev comma : UInt8 := 0x2C
abbrev slash : UInt8 := 0x2F
abbrev colon : UInt8 := 0x3A
abbrev equals : UInt8 := 0x3D
abbrev greater : UInt8 := 0x3E
abbrev question : UInt8 := 0x3F
abbrev openBracket : UInt8 := 0x5B
abbrev backslash : UInt8 := 0x5C
abbrev closeBracket : UInt8 := 0x5D
abbrev underscore : UInt8 := 0x5F
abbrev backtick : UInt8 := 0x60
abbrev openBrace : UInt8 := 0x7B
abbrev closeBrace : UInt8 := 0x7D

/-- An ASCII capital letter. -/
def isUpper (b : UInt8) : Bool := 0x41 ≤ b && b ≤ 0x5A

/-- An ASCII small letter. -/
def isLower (b : UInt8) : Bool := 0x61 ≤ b && b ≤ 0x7A

/-- An ASCII digit. -/
def isDigit (b : UInt8) : Bool := 0x30 ≤ b && b ≤ 0x39

/-- A byte of a word: an ASCII letter or digit, `_`, `$`, or any byte outside ASCII. -/
def isWord (b : UInt8) : Bool :=
  isUpper b || isLower b || isDigit b || b == underscore || b == dollar || 0x80 ≤ b

/-- ASCII white space between tokens: tab, newline, form feed, carriage return and space, but not
the vertical tab. -/
def isSpace (b : UInt8) : Bool :=
  b == tab || b == newline || b == formFeed || b == carriageReturn || b == space

/-- A byte inside a character of more than one byte: such a character cannot be cut before it. -/
def isContinuation (b : UInt8) : Bool := 0x80 ≤ b && b ≤ 0xBF

/-- An ASCII capital becomes the small letter; other bytes stay. -/
def toLower (b : UInt8) : UInt8 := if isUpper b then b + 0x20 else b

/-- The bytes of which words are made, in increasing order. -/
def wordBytes : List UInt8 := ((List.range 256).map UInt8.ofNat).filter isWord

end ProviderNest.Byte
