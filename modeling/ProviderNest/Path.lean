/-!
# Paths

A path is kept as it was written, and shown that way. `Path.join` puts a path behind a directory,
and `Path.components` is what two paths are compared by: repeated and trailing slashes do not
matter, nor does a `.` except at the start of a relative path, while `..` is never resolved.
-/

namespace ProviderNest

/-- A path as it was written. -/
structure Path where
  text : String
  deriving DecidableEq, Repr

/-- A component of a path. -/
inductive Component where
  | root
  | current
  | parent
  | name (text : String)
  deriving DecidableEq, Repr

namespace Path

/-- The parts of a text between its slashes, empty ones included. -/
def parts : List Char → List (List Char)
  | [] => [[]]
  | c :: cs =>
    if c = '/' then [] :: parts cs
    else
      match parts cs with
      | [] => [[c]]
      | p :: ps => (c :: p) :: ps

/-- The parts of a path that are not empty. -/
def names (p : Path) : List String :=
  ((parts p.text.toList).filter (!·.isEmpty)).map String.ofList

/-- Whether a path starts at the root. -/
def isAbsolute (p : Path) : Bool := p.text.toList.head? == some '/'

/-- Whether a path ends with a slash. -/
def endsWithSlash (p : Path) : Bool := p.text.toList.getLast? == some '/'

/-- The path `q` seen from the directory `p`. An absolute `q` stands for itself; otherwise a slash
is put between the two unless `p` is empty or has one at its end. -/
def join (p q : Path) : Path :=
  if q.isAbsolute then q
  else if p.text.isEmpty || p.endsWithSlash then ⟨p.text ++ q.text⟩
  else ⟨p.text ++ "/" ++ q.text⟩

/-- The component that a part stands for, a part `.` apart. -/
def component (name : String) : Component := if name = ".." then .parent else .name name

/-- The components of a path. -/
def components (p : Path) : List Component :=
  let rest := (p.names.filter (· != ".")).map component
  if p.isAbsolute then .root :: rest
  else if p.names.head? == some "." then .current :: rest
  else rest

/-- Whether two paths have the same components. -/
def same (p q : Path) : Bool := p.components == q.components

end Path

end ProviderNest
