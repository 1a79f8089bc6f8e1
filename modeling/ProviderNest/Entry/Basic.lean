import ProviderNest.Text.Lowercase

/-!
# Provider entries

An entry names a provider and holds its configuration in braces. In the flat shape the
configuration is the value of the name, `openai: { apiKey: k }`; in the nested shape it is the
value of a `default` key inside the provider's own braces. `Entry.nested` writes the nested shape.
-/

namespace ProviderNest

/-- The key that holds a configuration in the nested shape. -/
def nestedKey : Text := .ofString "default"

/-- The field by which a configuration is known: it comes first. -/
def apiKeyField : Text := .ofString "apiKey"

/-- The key of a map from provider names to configurations. -/
def providersKey : Text := .ofString "providers"

/-- The object through which a variable of the environment is read, with the dot behind it. -/
def environment : Text := .ofString "process.env."

/-- A provider's name and its configuration with the braces around it. -/
structure Entry where
  name : Text
  body : Text
  deriving DecidableEq, Repr

namespace Entry

/-- The entry of a provider whose key is the variable `var` of the environment. Its name is
lower-cased. -/
def ofEnv (name var : Text) : Entry where
  name := name.lower
  body :=
    .ofString "\x7b " ++ apiKeyField ++ .ofString ": " ++ environment ++ var ++ .ofString " \x7d"

/-- The nested shape of an entry on a line indented by `indent`. -/
def nested (e : Entry) (indent : Text) : Text :=
  e.name ++ .ofString ": \x7b\n" ++
    indent ++ .ofString "  " ++ nestedKey ++ .ofString ": " ++ e.body ++ .ofString ",\n" ++
    indent ++ .ofString "\x7d"

end Entry

end ProviderNest
