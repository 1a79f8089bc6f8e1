import ProviderNest.Text.Lowercase

/-!
# Log records

The five levels of a log, in increasing order of weight, and records of a level and a message. A
log is the list of its records, oldest first.
-/

namespace ProviderNest

/-- The weight of a record. -/
inductive Level where
  | trace
  | debug
  | info
  | warn
  | error
  deriving DecidableEq, Repr

namespace Level

/-- The place of a level in the order of weights. -/
def rank : Level → Nat
  | trace => 0
  | debug => 1
  | info => 2
  | warn => 3
  | error => 4

/-- The name of a level, filled up to five characters. -/
def label : Level → String
  | trace => "TRACE"
  | debug => "DEBUG"
  | info => "INFO "
  | warn => "WARN "
  | error => "ERROR"

/-- The level with a given name in any case of letters; any other text stands for `debug`. -/
def ofName (name : String) : Level :=
  match lowercase name with
  | "trace" => trace
  | "info" => info
  | "warn" => warn
  | "error" => error
  | _ => debug

/-- Whether one level has less weight than another. -/
def below (l m : Level) : Bool := l.rank < m.rank

end Level

/-- A message with its weight. -/
structure Record where
  level : Level
  message : String
  deriving DecidableEq, Repr

/-- Records, oldest first. -/
abbrev Log := List Record

/-- Whether the characters `needle` occur in a row. -/
def occursIn (needle : List Char) : List Char → Bool
  | [] => needle.isEmpty
  | c :: cs => needle.isPrefixOf (c :: cs) || occursIn needle cs

namespace Log

/-- The messages of a level. -/
def messages (log : Log) (level : Level) : List String :=
  (log.filter (·.level == level)).map Record.message

/-- Whether some message contains a text. -/
def mentions (log : Log) (text : String) : Bool :=
  log.any fun r => occursIn text.toList r.message.toList

end Log

end ProviderNest
