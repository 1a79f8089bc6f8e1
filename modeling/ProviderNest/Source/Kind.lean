import ProviderNest.Text.Basic

/-!
# Lexical kinds

Each byte of a source text is code, part of a quoted literal or part of a comment. A lexeme is
decided at its first byte: from there its length is measured at once (`literalLength`,
`lineLength`, `commentLength`), and the bytes that follow inherit its kind. So a quote inside a
comment and a comment opener inside a literal are never looked at.
-/

namespace ProviderNest

/-- What a byte of a source text belongs to. -/
inductive Kind where
  | code
  | literal
  | comment
  deriving DecidableEq, Repr

namespace Kind

/-- A byte that opens a quoted literal. -/
def isQuote (b : UInt8) : Bool :=
  b == Byte.doubleQuote || b == Byte.singleQuote || b == Byte.backtick

/-- The number of bytes of a literal behind its opening quote, in the text that follows the quote.
A backslash takes the next byte with it, the same quote closes the literal, and a newline ends it
before the newline unless the quote is a backtick; otherwise it runs to the end of the text. -/
def literalLength (quote : UInt8) : Text → Nat
  | [] => 0
  | [b] => if b = Byte.newline ∧ quote ≠ Byte.backtick then 0 else 1
  | b :: c :: r =>
    if b = Byte.backslash then literalLength quote r + 2
    else if b = quote then 1
    else if b = Byte.newline ∧ quote ≠ Byte.backtick then 0
    else literalLength quote (c :: r) + 1

/-- The number of bytes before the next newline. -/
def lineLength : Text → Nat
  | [] => 0
  | b :: r => if b = Byte.newline then 0 else lineLength r + 1

/-- The number of bytes up to and with the next `*/`. -/
def commentLength : Text → Nat
  | [] => 0
  | [_] => 1
  | b :: c :: r =>
    if b = Byte.star ∧ c = Byte.slash then 2 else commentLength (c :: r) + 1

/-- The kind of the lexeme that starts with byte `b`, and the number of further bytes of the text
`r` behind `b` that belong to it. Code is taken one byte at a time. -/
def lexeme (b : UInt8) (r : Text) : Kind × Nat :=
  if isQuote b then (literal, literalLength b r)
  else if b = Byte.slash then
    match r with
    | [] => (code, 0)
    | c :: r =>
      if c = Byte.slash then (comment, lineLength r + 1)
      else if c = Byte.star then (comment, commentLength r + 1)
      else (code, 0)
  else (code, 0)

/-- The kinds of the bytes of a text whose first `n` bytes still belong to a lexeme of kind `k`. -/
def assign : (n : Nat) → (k : Kind) → Text → List Kind
  | _, _, [] => []
  | n + 1, k, _ :: r => k :: assign n k r
  | 0, _, b :: r =>
    let l := lexeme b r
    l.1 :: assign l.2 l.1 r

/-- The kind of every byte of a text. -/
def ofText (t : Text) : List Kind := assign 0 code t

end Kind

end ProviderNest
