import FilterPipeline.Json.Basic
import FilterPipeline.Number.Writing

/-!
# Writing JSON

The compact form has no blank; the pretty form puts every item and member on a line of its own,
indented by two spaces a level.
-/

namespace FilterPipeline.Json

/-- The hexadecimal digit of a number below sixteen. -/
def hexDigit (n : Nat) : Char := Nat.digitChar n

/-- A character as a string holds it. -/
def escapedChar (c : Char) : String :=
  match c with
  | '"' => "\\\""
  | '\\' => "\\\\"
  | '\x08' => "\\b"
  | '\x0c' => "\\f"
  | '\n' => "\\n"
  | '\r' => "\\r"
  | '\t' => "\\t"
  | c =>
    if c.val < 0x20 then
      "\\u00" ++ String.ofList [hexDigit (c.toNat / 16), hexDigit (c.toNat % 16)]
    else c.toString

/-- A string between double quotes. -/
def writeString (s : String) : String :=
  s.foldl (fun out c ↦ out ++ escapedChar c) "\"" ++ "\""

/-- A number, a string or one of the words. -/
def writeScalar : Json → String
  | .null => "null"
  | .bool b => if b then "true" else "false"
  | .int n => toString n
  | .double x => x.write .json
  | .str s => writeString s
  | .arr _ | .obj _ => ""

mutual

/-- The compact form of a value. -/
def compact : Json → String
  | .arr items => "[" ++ ",".intercalate (compactItems items) ++ "]"
  | .obj members => "\x7b" ++ ",".intercalate (compactMembers members) ++ "\x7d"
  | v => writeScalar v

/-- The compact forms of items. -/
def compactItems : List Json → List String
  | [] => []
  | v :: rest => compact v :: compactItems rest

/-- The compact forms of members. -/
def compactMembers : List (String × Json) → List String
  | [] => []
  | (key, v) :: rest => (writeString key ++ ":" ++ compact v) :: compactMembers rest

end

/-- The start of a line, indented to a level. -/
def newLine (level : Nat) : String := "\n" ++ String.ofList (List.replicate (2 * level) ' ')

/-- Lines of one level between two brackets; the brackets meet when there is no line. -/
def bracketed (first last : String) (level : Nat) (lines : List String) : String :=
  if lines.isEmpty then first ++ last
  else
    first ++ newLine (level + 1) ++ ("," ++ newLine (level + 1)).intercalate lines ++
      newLine level ++ last

mutual

/-- The pretty form of a value that begins on a line of some level. -/
def prettyAt (level : Nat) : Json → String
  | .arr items => bracketed "[" "]" level (prettyItems (level + 1) items)
  | .obj members => bracketed "\x7b" "\x7d" level (prettyMembers (level + 1) members)
  | v => writeScalar v

/-- The pretty forms of items. -/
def prettyItems (level : Nat) : List Json → List String
  | [] => []
  | v :: rest => prettyAt level v :: prettyItems level rest

/-- The pretty forms of members. -/
def prettyMembers (level : Nat) : List (String × Json) → List String
  | [] => []
  | (key, v) :: rest => (writeString key ++ ": " ++ prettyAt level v) :: prettyMembers level rest

end

/-- The pretty form of a value. -/
def pretty (v : Json) : String := prettyAt 0 v

end FilterPipeline.Json
