import FilterPipeline.Catalog.Basic
import FilterPipeline.Filter.Reading
import FilterPipeline.Filter.Writing

/-!
# Catalogs in JSON
-/

namespace FilterPipeline

open Json (fieldOr)

/-- The names of the fields of an arithmetic variable, in order. -/
def arithmeticVariableFields : List (List String) := [["name"], ["variable"]]

/-- The names of the fields of a list variable, in order. -/
def listVariableFields : List (List String) := [["name"], ["listCondition"]]

/-- The names of the fields of a catalog, in order. -/
def catalogFields : List (List String) := [["arithmeticVariables", "variables"], ["listVariables"]]

/-- The arithmetic variable that a value means. -/
def ArithmeticVariable.ofJson? (v : Json) : Option ArithmeticVariable := do
  match ← v.layer.fields? arithmeticVariableFields with
  | [name, equation] => some ⟨← (← name).string?, ← (← equation).string?⟩
  | _ => none

/-- The list variable that a value means. -/
def ListVariable.ofJson? (v : Json) : Option ListVariable := do
  match ← v.layer.fields? listVariableFields with
  | [name, condition] => some ⟨← (← name).string?, ← ListCondition.ofJson? (← condition)⟩
  | _ => none

/-- The list of what the items of a value mean. -/
def listOf? {α : Type} (read? : Json → Option α) (v : Json) : Option (List α) :=
  v.items?.bind fun items ↦ items.mapM read?

/-- The catalog that a value means; nothing of it is required. -/
def Catalog.ofJson? (v : Json) : Option Catalog := do
  match ← v.layer.fields? catalogFields with
  | [arithmetic, lists] =>
    some {
      arithmetic := ← fieldOr [] (listOf? ArithmeticVariable.ofJson?) arithmetic
      lists := ← fieldOr [] (listOf? ListVariable.ofJson?) lists }
  | _ => none

/-- The part of a catalog document that is looked at. -/
def Catalog.shape : Shape :=
  .record [(["arithmeticVariables", "variables"],
      .list (.record (arithmeticVariableFields.map (·, .all)))),
    (["listVariables"],
      .list (.record [(["name"], .all),
        (["listCondition"], .record (listConditionFields.map (·, .all)))]))]

/-- The catalog that the text of a document means. -/
def Catalog.ofText? (text : String) : Option Catalog := do
  Catalog.ofJson? (← Json.ofTextWithin? Catalog.shape text)

/-- An arithmetic variable as a value. -/
def ArithmeticVariable.toJson (v : ArithmeticVariable) : Json :=
  .obj [("name", .str v.name), ("variable", .str v.equation)]

/-- A list variable as a value. -/
def ListVariable.toJson (v : ListVariable) : Json :=
  .obj [("listCondition", v.condition.toJson), ("name", .str v.name)]

/-- A catalog as a value. -/
def Catalog.toJson (c : Catalog) : Json :=
  .obj [("arithmeticVariables", .arr (c.arithmetic.map ArithmeticVariable.toJson)),
    ("listVariables", .arr (c.lists.map ListVariable.toJson))]

end FilterPipeline
