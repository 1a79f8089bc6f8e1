import ProviderNest.Text.Basic
import ProviderNest.Text.CaseTable

/-!
# Lower case

Full lower-casing of a text by the rules of Unicode, without those that depend on a language.
Each letter is replaced by its lower-case form; U+0130 becomes `i` with a dot above, and a capital
sigma becomes the final sigma `ς` at the end of a word and `σ` elsewhere. The end of a word is
judged past characters that do not matter for case (`Letter.isIgnorable`): a cased letter comes
before the sigma and none after it.
-/

namespace ProviderNest

namespace Letter

/-- Membership in a table of closed ranges. -/
def inRanges (ranges : List (Nat × Nat)) (c : Char) : Bool :=
  ranges.any fun r => r.1 ≤ c.toNat && c.toNat ≤ r.2

/-- The property Cased: the character is a capital, a small or a title-case letter. -/
def isCased (c : Char) : Bool := inRanges casedRanges c

/-- The property Case_Ignorable: the character does not end the word around it. -/
def isIgnorable (c : Char) : Bool := inRanges ignorableRanges c

/-- The lower-case form of a character on its own. -/
def lower (c : Char) : List Char :=
  if c = '\u0130' then ['i', '\u0307']
  else
    match lowerRuns.findSome? (·.lower? c.toNat) with
    | some n => [Char.ofNat n]
    | none => [c]

/-- Whether the first character that matters for case is a cased letter. -/
def leadsToCased (cs : List Char) : Bool :=
  match cs.dropWhile isIgnorable with
  | c :: _ => isCased c
  | [] => false

/-- The lower-case form of `rest`, where `before` holds the characters before it, nearest first. -/
def lowerAfter : (before rest : List Char) → List Char
  | _, [] => []
  | before, c :: rest =>
    let small :=
      if c = 'Σ' then if leadsToCased before && !leadsToCased rest then ['ς'] else ['σ']
      else lower c
    small ++ lowerAfter (c :: before) rest

end Letter

/-- The lower-case form of a string. -/
def lowercase (s : String) : String := String.ofList (Letter.lowerAfter [] s.toList)

/-- The lower-case form of a text; bytes that are not UTF-8 stay as they are. -/
def Text.lower (t : Text) : Text :=
  match decode? t with
  | some cs => ofChars (Letter.lowerAfter [] cs)
  | none => t

end ProviderNest
