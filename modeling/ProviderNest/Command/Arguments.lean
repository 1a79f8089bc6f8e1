/-!
# Command lines

Arguments are read from left to right. An option is written `--name`, `--name value` or
`--name=value`, and flags with a letter may be run together behind one dash. Everything behind `--`
is a plain argument, and so is a single dash. The request for the version or for help is answered
as soon as it is reached; an unknown or repeated option, a missing, empty or superfluous value and
a plain argument too many are usage errors.
-/

namespace ProviderNest

/-- An option of a command. -/
structure CommandOption where
  name : String
  letter : Option Char
  takesValue : Bool
  deriving DecidableEq, Repr

/-- What a command understands: its options, and the number of plain arguments. -/
structure Grammar where
  options : List CommandOption
  plain : Nat
  deriving DecidableEq, Repr

/-- Something that a command line gives. -/
inductive Given where
  | flag (name : String)
  | value (name text : String)
  | plain (text : String)
  deriving DecidableEq, Repr

/-- The reading of a command line. -/
inductive Arguments where
  | usageError
  | help
  | version
  | given (items : List Given)
  deriving DecidableEq, Repr

namespace Given

/-- The name of the option that is given. -/
def option? : Given → Option String
  | flag n => some n
  | value n _ => some n
  | plain _ => none

/-- The text of a plain argument. -/
def plain? : Given → Option String
  | plain t => some t
  | _ => none

end Given

namespace Arguments

/-- Whether a flag is among the things given. -/
def hasFlag (items : List Given) (name : String) : Bool := items.contains (.flag name)

/-- The value that is given to an option. -/
def value? (items : List Given) (name : String) : Option String :=
  items.findSome? fun
    | .value n t => if n = name then some t else none
    | _ => none

/-- A name and the value that an equals sign puts behind it. -/
def splitEquals : List Char → List Char × Option (List Char)
  | [] => ([], none)
  | '=' :: r => ([], some r)
  | c :: r =>
    let (name, value) := splitEquals r
    (c :: name, value)

/-- Whether an argument is an option rather than a value or a plain argument. -/
def isOption (a : String) : Bool :=
  match a.toList with
  | '-' :: _ :: _ => true
  | _ => false

section
variable (grammar : Grammar)

/-- One more thing, given after `items`, unless it is one too many or empty. -/
def add? (items : List Given) (g : Given) : Option (List Given) :=
  match g with
  | .flag n => if items.any (·.option? == some n) then none else some (items ++ [g])
  | .value n t =>
    if t.isEmpty || items.any (·.option? == some n) then none else some (items ++ [g])
  | .plain t =>
    if t.isEmpty || grammar.plain ≤ (items.filterMap Given.plain?).length then none
    else some (items ++ [g])

/-- The arguments behind `--`. -/
def readPlain : (items : List Given) → List String → Arguments
  | items, [] => .given items
  | items, a :: r =>
    match add? grammar items (.plain a) with
    | some items => readPlain items r
    | none => .usageError

/-- The letters behind a single dash; on success, what is given so far. -/
def readLetters : (items : List Given) → List Char → Arguments
  | items, [] => .given items
  | items, c :: r =>
    if c = 'h' then .help
    else if c = 'V' then .version
    else
      match grammar.options.find? fun o => o.letter == some c && !o.takesValue with
      | none => .usageError
      | some o =>
        match add? grammar items (.flag o.name) with
        | some items => readLetters items r
        | none => .usageError

/-- The arguments after those that gave `items`. -/
def read : (items : List Given) → List String → Arguments
  | items, [] => .given items
  | items, a :: r =>
    match a.toList with
    | ['-', '-'] => readPlain grammar items r
    | '-' :: '-' :: long =>
      let (name, attached) := splitEquals long
      match grammar.options.find? fun o => o.name == String.ofList name with
      | none =>
        if attached.isSome then .usageError
        else if name = "help".toList then .help
        else if name = "version".toList then .version
        else .usageError
      | some o =>
        if o.takesValue then
          match attached with
          | some v =>
            match add? grammar items (.value o.name (String.ofList v)) with
            | some items => read items r
            | none => .usageError
          | none =>
            match r with
            | [] => .usageError
            | v :: r =>
              if isOption v then .usageError
              else
                match add? grammar items (.value o.name v) with
                | some items => read items r
                | none => .usageError
        else if attached.isSome then .usageError
        else
          match add? grammar items (.flag o.name) with
          | some items => read items r
          | none => .usageError
    | '-' :: c :: letters =>
      match readLetters grammar items (c :: letters) with
      | .given items => read items r
      | stop => stop
    | _ =>
      match add? grammar items (.plain a) with
      | some items => read items r
      | none => .usageError

end

end Arguments

/-- The reading of a command line. -/
def Grammar.read (grammar : Grammar) (args : List String) : Arguments :=
  Arguments.read grammar [] args

end ProviderNest
