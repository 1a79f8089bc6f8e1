import ProviderNest.Text.HiddenTable
import ProviderNest.Text.Lowercase

/-!
# Quoted strings

A string in quotation marks, as it is shown in descriptions: quotation marks and backslashes have
a backslash before them, and a character that does not show is written as an escape, by its letter
if it has one and by its code otherwise.
-/

namespace ProviderNest.Quoted

/-- A code in hexadecimal digits, between braces. -/
def codeEscape (c : Char) : List Char :=
  ['\\', 'u', '{'] ++ Nat.toDigits 16 c.toNat ++ ['}']

/-- A character between quotation marks. -/
def escapeChar (c : Char) : List Char :=
  if c = '"' || c = '\\' then ['\\', c]
  else if c = '\x00' then ['\\', '0']
  else if c = '\t' then ['\\', 't']
  else if c = '\n' then ['\\', 'n']
  else if c = '\r' then ['\\', 'r']
  else if Letter.inRanges hiddenRanges c then codeEscape c
  else [c]

/-- A string in quotation marks. -/
def encode (s : String) : String := "\"" ++ String.ofList (s.toList.flatMap escapeChar) ++ "\""

end ProviderNest.Quoted
