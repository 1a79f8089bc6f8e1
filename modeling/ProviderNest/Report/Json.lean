import ProviderNest.Report.Basic

/-!
# Reports as JSON

The written form of a report: a JSON document in lines, each level indented by two spaces and the
fields in a fixed order. In a string the quotation mark, the backslash and the control characters
are escaped, those with a short form by it, and every other character stands for itself.
-/

namespace ProviderNest

/-- A JSON value, as far as reports need it. -/
inductive JsonValue where
  | number (n : Nat)
  | text (s : String)
  | list (items : List JsonValue)
  | object (fields : List (String × JsonValue))

namespace JsonValue

/-- A character inside a string. -/
def escapeChar (c : Char) : List Char :=
  if c = '"' then ['\\', '"']
  else if c = '\\' then ['\\', '\\']
  else if c = '\n' then ['\\', 'n']
  else if c = '\r' then ['\\', 'r']
  else if c = '\t' then ['\\', 't']
  else if c = '\x08' then ['\\', 'b']
  else if c = '\x0c' then ['\\', 'f']
  else if c.toNat < 0x20 then
    ['\\', 'u', '0', '0', Nat.digitChar (c.toNat / 16), Nat.digitChar (c.toNat % 16)]
  else [c]

/-- A string with its quotation marks. -/
def quote (s : String) : String := "\"" ++ String.ofList (s.toList.flatMap escapeChar) ++ "\""

/-- The items of a list or object, one to a line, between two brackets. -/
def bracket (opening closing : String) (margin : String) (items : List String) : String :=
  if items.isEmpty then opening ++ closing
  else
    opening ++ "\n" ++ ",\n".intercalate (items.map fun item => margin ++ "  " ++ item) ++ "\n" ++
      margin ++ closing

mutual
/-- A value in lines, the later ones indented by `margin`. -/
def lines (margin : String) : JsonValue → String
  | .number n => toString n
  | .text s => quote s
  | .list items => bracket "[" "]" margin (linesOfList (margin ++ "  ") items)
  | .object fields => bracket "\x7b" "\x7d" margin (linesOfFields (margin ++ "  ") fields)

/-- The items of a list. -/
def linesOfList (margin : String) : List JsonValue → List String
  | [] => []
  | v :: vs => v.lines margin :: linesOfList margin vs

/-- The fields of an object. -/
def linesOfFields (margin : String) : List (String × JsonValue) → List String
  | [] => []
  | (name, v) :: fields => (quote name ++ ": " ++ v.lines margin) :: linesOfFields margin fields
end

end JsonValue

/-- The fields that a status adds to its file. -/
def Status.fields : Status → List (String × JsonValue)
  | .updated n => [("status", .text "updated"), ("rewrites", .number n)]
  | .failed e => [("status", .text "failed"), ("error", .text e)]
  | s => [("status", .text s.name)]

/-- The counts of a summary. -/
def Summary.json (s : Summary) : JsonValue :=
  .object [("updated", .number s.updated), ("unchanged", .number s.unchanged),
    ("already_migrated", .number s.alreadyMigrated), ("not_found", .number s.notFound),
    ("failed", .number s.failed)]

/-- A file and its status. -/
def FileReport.json (f : FileReport) : JsonValue :=
  .object (("path", .text f.path.text) :: f.status.fields)

/-- A report as a JSON value. -/
def Report.json (r : Report) : JsonValue :=
  .object [("files", .list (r.files.map FileReport.json)), ("summary", r.summary.json)]

end ProviderNest
