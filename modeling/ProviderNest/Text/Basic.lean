import ProviderNest.Text.Byte

/-!
# Texts as bytes

All positions in this library are byte positions, so a text is the list of the bytes of its UTF-8
form. `Text.ofChars` writes characters as bytes and `Text.decode?` reads them back, refusing every
byte sequence that `Text.ofChars` does not produce: overlong forms, surrogates, code points beyond
U+10FFFF and truncated characters.
-/

namespace ProviderNest

/-- A text: the bytes of its UTF-8 form. -/
abbrev Text := List UInt8

namespace Text

/-- The UTF-8 form of a list of characters. -/
def ofChars (cs : List Char) : Text := cs.flatMap String.utf8EncodeChar

/-- The UTF-8 form of a string. -/
def ofString (s : String) : Text := ofChars s.toList

/-- The six bits that a continuation byte carries. -/
def payload (b : UInt8) : Nat := b.toNat - 0x80

/-- The character of a well-formed sequence of two bytes. -/
def pair? (a b : UInt8) : Option Char :=
  if 0xC2 ≤ a && a ≤ 0xDF && Byte.isContinuation b then
    some (Char.ofNat ((a.toNat - 0xC0) * 64 + payload b))
  else none

/-- The character of a well-formed sequence of three bytes: not overlong and no surrogate. -/
def triple? (a b c : UInt8) : Option Char :=
  let n := (a.toNat - 0xE0) * 4096 + payload b * 64 + payload c
  if 0xE0 ≤ a && a ≤ 0xEF && Byte.isContinuation b && Byte.isContinuation c && 0x800 ≤ n &&
      !(0xD800 ≤ n && n ≤ 0xDFFF) then
    some (Char.ofNat n)
  else none

/-- The character of a well-formed sequence of four bytes: not overlong and at most U+10FFFF. -/
def quadruple? (a b c d : UInt8) : Option Char :=
  let n := (a.toNat - 0xF0) * 262144 + payload b * 4096 + payload c * 64 + payload d
  if 0xF0 ≤ a && a ≤ 0xF4 && Byte.isContinuation b && Byte.isContinuation c &&
      Byte.isContinuation d && 0x10000 ≤ n && n ≤ 0x10FFFF then
    some (Char.ofNat n)
  else none

/-- The characters of a text, or nothing where its bytes are not well-formed UTF-8. -/
def decode? : Text → Option (List Char)
  | [] => some []
  | [a] => if a < 0x80 then some [Char.ofNat a.toNat] else none
  | a :: b :: r =>
    if a < 0x80 then (decode? (b :: r)).map (Char.ofNat a.toNat :: ·)
    else match pair? a b with
      | some x => (decode? r).map (x :: ·)
      | none =>
        match r with
        | [] => none
        | c :: r =>
          match triple? a b c with
          | some x => (decode? r).map (x :: ·)
          | none =>
            match r with
            | [] => none
            | d :: r =>
              match quadruple? a b c d with
              | some x => (decode? r).map (x :: ·)
              | none => none

/-- The text as a string, if it is well-formed UTF-8. -/
def toString? (t : Text) : Option String := (decode? t).map String.ofList

/-- Equality up to the case of ASCII letters. -/
def sameIgnoringCase (t u : Text) : Bool := t.map Byte.toLower == u.map Byte.toLower

end Text

end ProviderNest
