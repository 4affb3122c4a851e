import PugComponents.Json.Value
import PugComponents.Text.Quoted
import PugComponents.Text.Split

/- Writing JSON texts, one item or member to a line, indented by two spaces. -/
namespace PugComponents.Json

open Text

/-- A line break and the indentation of the new line. -/
def lineBreak (level : Nat) : String := "\n" ++ String.ofList (List.replicate (2 * level) ' ')

mutual

/-- The text of a value at a level of indentation. A string that is no text is written empty. -/
def render (level : Nat) : Value → String
  | .null => "null"
  | .bool b => if b then "true" else "false"
  | .number text => text
  | .string value => quoted (value.getD "")
  | .array items =>
    if items.isEmpty then "[]"
    else "[" ++ joinWith "," (renderItems (level + 1) items) ++ lineBreak level ++ "]"
  | .object members =>
    if members.isEmpty then "\x7b\x7d"
    else "\x7b" ++ joinWith "," (renderMembers (level + 1) members) ++ lineBreak level ++ "\x7d"

/-- The lines of items. -/
def renderItems (level : Nat) : List Value → List String
  | [] => []
  | item :: rest => (lineBreak level ++ render level item) :: renderItems level rest

/-- The lines of members. -/
def renderMembers (level : Nat) : List (Option String × Value) → List String
  | [] => []
  | (key, value) :: rest =>
    (lineBreak level ++ quoted (key.getD "") ++ ": " ++ render level value) ::
      renderMembers level rest

end

/-- The text of a value. -/
def Value.pretty (v : Value) : String := render 0 v

/-- A string value. -/
def text (s : String) : Value := .string (some s)

/-- A number value. -/
def count (n : Nat) : Value := .number (toString n)

/-- An object value. -/
def fields (members : List (String × Value)) : Value :=
  .object (members.map fun (key, value) => (some key, value))

end PugComponents.Json
