import ProviderNest.Yaml.Cursor

/-!
# Scalars of a YAML text

The three spellings of a scalar that are read here. A plain scalar has no quotes and goes on while
the lines are indented; in single quotes a quote is written twice; in double quotes a backslash
introduces an escape. Words are joined over line breaks as `Gap.folded` says.
-/

namespace ProviderNest.Yaml

/-- A bracket or comma, which divides the entries of a flow collection. -/
def isFlowMark (c : Char) : Bool := c == ',' || c == '[' || c == ']' || c == '{' || c == '}'

/-- The word of a plain scalar that a text begins with. A colon before a gap ends it, and inside a
flow collection so do brackets and commas; there a colon right before one of these is refused. -/
def plainWord (inFlow : Bool) : List Char → Option (List Char)
  | [] => some []
  | c :: r =>
    if isBlank c || isBreak c || (inFlow && isFlowMark c) then some []
    else if c == ':' && inFlow && (r.head?.any fun d => isFlowMark d || d == '?') then none
    else if c == ':' && atGap r then some []
    else (plainWord inFlow r).map (c :: ·)

/-- Reads a plain scalar in at most `n` words: `text` was read before, and `gap` stands between it
and the place. The answer tells whether a line ended behind the last word. -/
def plain (inFlow : Bool) (margin : Int) :
    (n : Nat) → Cursor → (text : List Char) → Gap → Option (Cursor × List Char × Bool)
  | 0, _, _, _ => none
  | n + 1, c, text, gap =>
    if c.atDocument || c.rest.head? == some '#' then some (c, text, gap.endsLine)
    else do
      let word ← plainWord inFlow c.rest
      if word.isEmpty then return (c, text, gap.endsLine)
      let text := text ++ gap.folded ++ word
      let (c, gap) ← Gap.read margin c.rest.length (c.advance word.length) .none
      if gap.blanks.isEmpty && gap.breaks.isEmpty then return (c, text, false)
      if !inFlow && c.column < margin then return (c, text, gap.endsLine)
      plain inFlow margin n c text gap

/-- The value of a hexadecimal digit. -/
def hexDigit? (c : Char) : Option Nat :=
  if '0' ≤ c && c ≤ '9' then some (c.toNat - 48)
  else if 'a' ≤ c && c ≤ 'f' then some (c.toNat - 87)
  else if 'A' ≤ c && c ≤ 'F' then some (c.toNat - 55)
  else none

/-- The character whose code is written in the first `n` characters. -/
def hexChar? (n : Nat) (t : List Char) : Option Char := do
  guard (n ≤ t.length)
  let digits ← (t.take n).mapM hexDigit?
  let code := digits.foldl (fun v d => v * 16 + d) 0
  if h : code.isValidChar then return Char.ofNatAux code h else none

/-- The character of an escape of one letter. -/
def escaped? (c : Char) : Option Char :=
  match c with
  | '0' => some '\x00'
  | 'a' => some '\x07'
  | 'b' => some '\x08'
  | 't' => some '\t'
  | '\t' => some '\t'
  | 'n' => some '\n'
  | 'v' => some '\x0b'
  | 'f' => some '\x0c'
  | 'r' => some '\r'
  | 'e' => some '\x1b'
  | ' ' => some ' '
  | '"' => some '"'
  | '/' => some '/'
  | '\\' => some '\\'
  | 'N' => some '\u0085'
  | '_' => some '\u00a0'
  | 'L' => some '\u2028'
  | 'P' => some '\u2029'
  | _ => none

/-- The number of digits behind an escape that gives a code. -/
def codeLength? (c : Char) : Option Nat :=
  match c with
  | 'x' => some 2
  | 'u' => some 4
  | 'U' => some 8
  | _ => none

/-- Reads the characters of a quoted scalar up to a gap, the quote or the end, in at most `n`
steps. The answer tells whether an escaped line break ended it. -/
def quotedWord (quote : Char) : (n : Nat) → Cursor → (text : List Char) →
    Option (Cursor × List Char × Bool)
  | 0, c, text => some (c, text, false)
  | n + 1, c, text =>
    match c.rest with
    | [] => some (c, text, false)
    | x :: r =>
      if isBlank x || isBreak x then some (c, text, false)
      else if quote == '\'' && x == quote && r.head? == some quote then
        quotedWord quote n (c.advance 2) (text ++ [quote])
      else if x == quote then some (c, text, false)
      else if quote == '"' && x == '\\' then
        match r with
        | [] => none
        | e :: digits =>
          if isBreak e then some ((c.advance 1).nextLine, text, true)
          else
            match codeLength? e with
            | some k => do
              let y ← hexChar? k digits
              quotedWord quote n (c.advance (2 + k)) (text ++ [y])
            | none => do
              let y ← escaped? e
              quotedWord quote n (c.advance 2) (text ++ [y])
      else quotedWord quote n (c.advance 1) (text ++ [x])

/-- Reads a quoted scalar behind its opening quote, in at most `n` words. -/
def quoted (quote : Char) : (n : Nat) → Cursor → (text : List Char) → Option (Cursor × List Char)
  | 0, _, _ => none
  | n + 1, c, text => do
    guard (!c.atDocument && !c.rest.isEmpty)
    let (c, text, escaped) ← quotedWord quote c.rest.length c text
    if c.rest.head? == some quote then return (c.advance 1, text)
    let (c, gap) ← Gap.read 0 c.rest.length c ⟨[], [], escaped⟩
    quoted quote n c (text ++ gap.folded)

end ProviderNest.Yaml
