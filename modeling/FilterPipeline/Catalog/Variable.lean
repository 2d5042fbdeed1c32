import FilterPipeline.Fault
import FilterPipeline.Filter.Tree
import FilterPipeline.Formula.Names
import FilterPipeline.Text.Splitting

/-!
# Saved variables

An arithmetic variable names a formula and is stored as an equation. A list variable names a test of
the elements of an array, the elements that pass one, or a number computed from them.
-/

namespace FilterPipeline

/-- A named formula, stored as an equation `name = formula`. -/
structure ArithmeticVariable where
  name : String
  equation : String

namespace ArithmeticVariable

/-- The sides of an equation, without blanks around them. -/
def sides (equation : String) : List String :=
  (Text.splitString '=' equation).map Text.trimmed

/-- Whether a name consists of ASCII letters, digits and underscores and begins with no digit. -/
def isName (s : String) : Bool :=
  match s.toList with
  | [] => false
  | c :: cs => (c.isAlpha || c == '_') && cs.all fun c ↦ c.isAlphanum || c == '_'

/-- The variable that an equation typed by the user defines. -/
def ofEquation (equation : String) : Except Fault ArithmeticVariable :=
  match sides equation with
  | [name, formula] =>
    if name.isEmpty || formula.isEmpty then .error (.arithmetic (.emptySide equation))
    else if !isName name then .error (.arithmetic (.badName name))
    else .ok ⟨name, name ++ " = " ++ formula⟩
  | _ => .error (.arithmetic (.notOneEquation equation))

/-- The text of the formula: the right side of the equation, or all of it where there is no equals
sign. With an empty side or a second equals sign there is none. -/
def formula? (v : ArithmeticVariable) : Option String :=
  match sides v.equation with
  | [whole] => if whole.isEmpty then none else some whole
  | [left, right] => if left.isEmpty || right.isEmpty then none else some right
  | _ => none

/-- The names that the formula depends on. -/
def dependencies (v : ArithmeticVariable) : List String :=
  (v.formula?.map Formula.dependencies).getD []

/-- The name that the variable is referred to by. -/
def key (v : ArithmeticVariable) : String := Text.trimmed v.name

end ArithmeticVariable

/-- A named test of an array, selection of its elements or number computed from them. -/
structure ListVariable where
  name : String
  condition : ListCondition

namespace ListVariable

/-- The name that the variable is referred to by. -/
def key (v : ListVariable) : String := Text.trimmed v.name

/-- The list operator that the variable is defined with. -/
def operator? (v : ListVariable) : Option ListOperator := v.condition.listOperator?

/-- Whether a name consists of ASCII letters and digits, blanks, underscores and hyphens. -/
def isName (s : String) : Bool :=
  s.toList.all fun c ↦ c.isAlphanum || c == '_' || c == '-' || Text.isBlank c

/-- The first fault of a list variable. -/
def fault? (v : ListVariable) : Option ListVariableFault :=
  if v.key.length < 3 then some .nameTooShort
  else if 50 < v.key.length then some .nameTooLong
  else if !isName v.key then some .badName
  else if v.condition.arrayPath?.isNone then some .noArray
  else
    match v.condition.operator with
    | none => some .noOperator
    | some op =>
      match op.list? with
      | none => some (.notListOperator op.key)
      | some (.aggregate a) =>
        if v.condition.subFieldName?.isNone then some (.noSubField a.key) else none
      | some _ =>
        if v.condition.operand.nested?.all (·.children.isEmpty) then some .noElementCondition
        else none

/-- Accepts a list variable without fault. -/
def validate (v : ListVariable) : Except Fault Unit :=
  match v.fault? with
  | none => .ok ()
  | some fault => .error (.listVariable v.key fault)

end ListVariable
end FilterPipeline
