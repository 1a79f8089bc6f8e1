import ProviderNest.Log.Record
import ProviderNest.Pipeline

/-!
# Traces

A trace tells what each pass of a pipeline did. It is kept apart from the log, in a file that is
only made when tracing is switched on and something is traced, and it leaves out what has less
weight than the settings ask for.
-/

namespace ProviderNest

/-- A traced message, and the part of the program that it comes from. -/
structure Traced where
  level : Level
  origin : String
  message : String
  deriving DecidableEq, Repr

/-- The line of a traced message, without the time of day. -/
def Traced.line (m : Traced) : String :=
  "[" ++ m.level.label ++ "] [" ++ m.origin ++ "] " ++ m.message

/-- A number in decimal digits, filled up with zeros to a width. -/
def padded (width n : Nat) : String :=
  let digits := toString n
  String.ofList (List.replicate (width - digits.length) '0') ++ digits

/-- The time of day in hours, minutes, seconds and milliseconds, `ms` milliseconds after the start
of some day. -/
def timeOfDay (ms : Nat) : String :=
  let s := ms / 1000
  padded 2 (s % 86400 / 3600) ++ ":" ++ padded 2 (s % 3600 / 60) ++ ":" ++ padded 2 (s % 60) ++
    "." ++ padded 3 (ms % 1000)

/-- Whether tracing is on, and the least weight that is traced. -/
structure TraceSettings where
  enabled : Bool
  minimum : Level
  deriving DecidableEq, Repr

namespace TraceSettings

/-- Whether the value of a switch means that it is on: `1`, or `true` in any case of letters. -/
def isOn (value : String) : Bool :=
  value == "1" || Text.sameIgnoringCase (.ofString value) (.ofString "true")

/-- The settings for the values of two environment variables: the switch, and the level. -/
def ofValues (switch level : Option String) : TraceSettings where
  enabled := switch.any isOn
  minimum := (level.map Level.ofName).getD .debug

/-- What is kept of the traced messages, if the trace file comes to be at all. -/
def keep? (s : TraceSettings) (messages : List Traced) : Option (List Traced) :=
  if s.enabled && !messages.isEmpty then
    some (messages.filter fun m => !m.level.below s.minimum)
  else none

end TraceSettings

/-- The trace of one pass of a pipeline: the blocks that it rebuilt, then the number of entries. -/
def Stage.traced (pipeline : String) (g : Stage) : List Traced :=
  let blocks := if g.pass.findsBlocks then g.edits else []
  blocks.map (fun e =>
    ⟨.trace, "provmig_core::engine::passes",
      "providers block at " ++ toString e.anchor ++ ": " ++ toString e.count ++ " fragment(s)"⟩) ++
    [⟨.debug, "provmig_core::engine::pipeline",
      pipeline ++ "/" ++ g.pass.name ++ ": " ++ toString g.count ++ " rewrite(s)"⟩]

/-- The trace of a run of a pipeline. -/
def Migration.traced (pipeline : String) (m : Migration) : List Traced :=
  m.stages.flatMap (Stage.traced pipeline)

end ProviderNest
