import ProviderNest.Log.Record

/-!
# Logs on a console

What of a log appears on a console. Information goes to standard output, so that it can be piped
on; everything else goes to standard error, debugging messages only on request.
-/

namespace ProviderNest

/-- What a program wrote to standard output and to standard error. -/
structure Printed where
  stdout : String
  stderr : String
  deriving DecidableEq, Repr

namespace Printed

/-- Nothing written. -/
def nothing : Printed := ⟨"", ""⟩

/-- One piece of output and then another. -/
def append (p q : Printed) : Printed := ⟨p.stdout ++ q.stdout, p.stderr ++ q.stderr⟩

instance : Append Printed := ⟨append⟩

end Printed

/-- How a log is shown: the tag before each line, and whether debugging messages appear. -/
structure Console where
  tag : String := "[provmig]"
  verbose : Bool := false
  deriving DecidableEq, Repr

namespace Console

/-- A record on the console. -/
def display (c : Console) (r : Record) : Printed :=
  match r.level with
  | .trace => .nothing
  | .debug => if c.verbose then ⟨"", c.tag ++ " DEBUG: " ++ r.message ++ "\n"⟩ else .nothing
  | .info => ⟨c.tag ++ " " ++ r.message ++ "\n", ""⟩
  | .warn => ⟨"", c.tag ++ " WARN: " ++ r.message ++ "\n"⟩
  | .error => ⟨"", c.tag ++ " ERROR: " ++ r.message ++ "\n"⟩

/-- A whole log on the console. -/
def displayAll (c : Console) (log : Log) : Printed := (log.map c.display).foldl (· ++ ·) .nothing

end Console

end ProviderNest
