import LolMarkup.Text.Quoted

/-!
# JSON values and their text

The values are those that outlines are made of: whole numbers, texts, arrays and objects whose
members keep their order. The text of a value is indented by two spaces per level.
-/

namespace LolMarkup

/-- A JSON value. -/
inductive Json where
  | number (value : Int)
  | string (value : String)
  | array (items : List Json)
  | object (members : List (String × Json))
deriving Repr

namespace Json

/-- The start of a line at the given level. -/
def lineStart (level : Nat) : String :=
  "\n" ++ String.ofList (List.replicate (2 * level) ' ')

/-- Parts on lines of their own between two brackets, or just the brackets if there is none. The
closing bracket stands at the given level. -/
def bracketed (level : Nat) (opening closing : String) (parts : List String) : String :=
  if parts.isEmpty then opening ++ closing
  else
    opening ++ lineStart (level + 1) ++ ("," ++ lineStart (level + 1)).intercalate parts ++
      lineStart level ++ closing

mutual

/-- The text of a value whose first line stands at the given level. -/
def pretty (level : Nat) : Json → String
  | .number value => toString value
  | .string value => Text.quoted value
  | .array items => bracketed level "[" "]" (prettyItems (level + 1) items)
  | .object members => bracketed level "\x7b" "\x7d" (prettyMembers (level + 1) members)

/-- The texts of the items of an array. -/
def prettyItems (level : Nat) : List Json → List String
  | [] => []
  | item :: rest => pretty level item :: prettyItems level rest

/-- The texts of the members of an object. -/
def prettyMembers (level : Nat) : List (String × Json) → List String
  | [] => []
  | (key, value) :: rest =>
      (Text.quoted key ++ ": " ++ pretty level value) :: prettyMembers level rest

end

end Json

end LolMarkup
