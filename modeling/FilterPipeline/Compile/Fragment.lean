import FilterPipeline.Filter.Tree
import FilterPipeline.Json.Writer
import FilterPipeline.Number.Numeral
import FilterPipeline.Schema.Basic

/-!
# Operands and fragments

The literal that a user typed becomes an operand of the kind that the compared field has. Fragments
are the pieces that queries and aggregation expressions are put together from.
-/

namespace FilterPipeline

namespace Json

/-- The finite number that a text is, blanks around it aside. -/
def finiteNumber? (s : String) : Option Double := Numeral.finiteValue? (Text.trim s.toList)

/-- A numeric text becomes a number; any other value is kept. -/
def coerceNumber : Json → Json
  | .str s => ((finiteNumber? s).map .ofDouble).getD (.str s)
  | v => v

/-- A literal as the operand of a comparison with a field of some type: for a string its text is
kept, for a truth value the words `true` and `false` are understood, and otherwise numeric text. -/
def coerceFor (type : Option FieldType) (v : Json) : Json :=
  match type, v with
  | some .string, v => v
  | some .boolean, .str s =>
    match Text.trimmed s with
    | "true" => .bool true
    | "false" => .bool false
    | _ => .str s
  | _, v => v.coerceNumber

/-- The number that a value is or spells. -/
def number? : Json → Option Double
  | .str s => finiteNumber? s
  | v => v.toDouble?

/-- The text of the operand of a regular expression. -/
def regexText : Json → String
  | .str s => s
  | .null => ""
  | v => v.compact

/-- The characters that have a meaning in regular expressions. -/
def regexSpecials : List Char := "\\.+*?()|[]\x7b\x7d^$#&-~".toList

/-- The regular expression that matches just one text. -/
def regexEscape (s : String) : String :=
  String.ofList (s.toList.flatMap fun c ↦ if regexSpecials.contains c then ['\\', c] else [c])

/-- The regular expression for a literal text, tied to the start or to the end of the field's. -/
def literalPattern (v : Json) (atStart atEnd : Bool) : String :=
  let escaped := regexEscape v.regexText
  match atStart, atEnd with
  | true, false => "^" ++ escaped
  | false, true => escaped ++ "$"
  | _, _ => escaped

/-- A list as it is, and any other value as a list of one. -/
def wrapList : Json → Json
  | .arr items => .arr items
  | v => .arr [v]

/-- Whether a value is `false` or the word for it. -/
def isFalse : Json → Bool
  | .bool b => !b
  | .str s => Text.trimmed s == "false"
  | _ => false

/-- The ends of a range. -/
def rangeBounds? : Json → Option (Json × Json)
  | .arr [low, high] => some (low.coerceNumber, high.coerceNumber)
  | _ => none

/-- A value that is neither null nor the empty string, so that something can be compared with it. -/
def isComparable (v : Json) : Bool := !v.isNull && !v.isEmptyString

end Json

/-- Combines fragments; one by itself is not wrapped, and none give none. -/
def Logic.combine (logic : Logic) : List Json → Option Json
  | [] => none
  | [part] => some part
  | parts => some (.single logic.key (.arr parts))

/-- Fewer than two fragments are not wrapped. -/
theorem Logic.toList_combine {logic : Logic} {parts : List Json} (h : parts.length ≤ 1) :
    (logic.combine parts).toList = parts := by
  match parts, h with
  | [], _ => rfl
  | [_], _ => rfl

namespace Fragment

/-- The negation of an aggregation expression. -/
def negateExpr (e : Json) : Json := .single "$not" (.arr [e])

/-- A query that holds when an aggregation expression does. -/
def exprQuery (e : Json) : Json := .single "$expr" e

/-- The negation of a query. -/
def negateQuery : Json → Json
  | .obj [("$expr", e)] => exprQuery (negateExpr e)
  | fragment => .single "$nor" (.arr [fragment])

/-- An array to walk over, empty where there is none. -/
def arrayInput (array : Json) : Json := .single "$ifNull" (.arr [array, .arr []])

/-- The number of elements of an array. -/
def sizeOfArray (array : Json) : Json := .single "$size" (arrayInput array)

/-- Whether an array, given as it is, has an element. -/
def isNotEmpty (array : Json) : Json :=
  .single "$gt" (.arr [.single "$size" array, .int 0])

end Fragment
end FilterPipeline
