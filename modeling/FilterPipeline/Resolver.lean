import FilterPipeline.Catalog.Basic
import FilterPipeline.Formula.Cache
import FilterPipeline.Settings

/-!
# What a name refers to

A name in a condition is a list variable, an arithmetic variable or a path of the schema, in this
order. The resolver tells which, what type it has, which operators suit it, and what it depends on.
-/

namespace FilterPipeline

/-- A schema and the variables that may be named besides its fields. -/
structure Resolver where
  schema : Schema
  catalog : Catalog

/-- What a name refers to. -/
inductive FieldKind where
  /-- A path of the document, whether the schema knows it or not. -/
  | base
  | arithmetic (v : ArithmeticVariable)
  /-- A list variable and the list operator that it is defined with. -/
  | list (v : ListVariable) (op : ListOperator)

/-- What a name depends on. -/
structure Dependencies where
  /-- The paths, in order. -/
  baseFields : List String
  /-- The list variables, in order. -/
  listVariables : List String

namespace FieldKind

/-- Whether a name refers to a path. -/
def isBase : FieldKind → Bool
  | base => true
  | _ => false

/-- Whether a name refers to a list variable. -/
def isList : FieldKind → Bool
  | list .. => true
  | _ => false

end FieldKind

/-- The type of what a list variable stands for. -/
def ListOperator.fieldType : ListOperator → FieldType
  | quantifier _ => .boolean
  | filter => .array
  | aggregate _ => .number

/-- The operators that suit a type. -/
def FieldType.operators : FieldType → List Operator
  | number =>
    [.compare .eq, .compare .ne, .compare .gt, .compare .gte, .compare .lt, .compare .lte, .oneOf,
      .noneOf, .between, .notBetween]
  | string =>
    [.compare .eq, .compare .ne, .regex, .contains, .startsWith, .endsWith, .oneOf, .noneOf]
  | boolean => [.compare .eq, .compare .ne]
  | array =>
    [.oneOf, .noneOf, .list (.quantifier .any), .list (.quantifier .all), .list .filter,
      .longerThan, .shorterThan, .list (.aggregate .min), .list (.aggregate .max),
      .list (.aggregate .avg), .list (.aggregate .sum)]
  | object => []

/-- The operators that suit every type. -/
def commonOperators : List Operator := [.present, .isNumber]

namespace Resolver

variable (r : Resolver)

/-- What a name refers to. A list variable without list operator is passed over. -/
def classify (name : String) : FieldKind :=
  match (r.catalog.list? name).bind fun v ↦ v.operator?.map (v, ·) with
  | some (v, op) => .list v op
  | none =>
    match r.catalog.arithmetic? name with
    | some v => .arithmetic v
    | none => .base

/-- A name refers to a list variable when the catalog has one of that name with a list operator. -/
theorem classify_eq_list_iff {r : Resolver} {name : String} {v : ListVariable}
    {op : ListOperator} :
    r.classify name = .list v op ↔ r.catalog.list? name = some v ∧ v.operator? = some op := by
  unfold classify
  constructor
  · intro h
    split at h
    · next w o hw =>
      obtain ⟨u, hu, ho⟩ := Option.bind_eq_some_iff.mp hw
      obtain ⟨p, hp, he⟩ := Option.map_eq_some_iff.mp ho
      cases he
      cases h
      exact ⟨hu, hp⟩
    · next => split at h <;> cases h
  · rintro ⟨hv, ho⟩
    simp [hv, ho]

/-- A name that refers to an arithmetic variable finds it in the catalog. -/
theorem arithmetic?_of_classify {r : Resolver} {name : String} {v : ArithmeticVariable}
    (h : r.classify name = .arithmetic v) : r.catalog.arithmetic? name = some v := by
  unfold classify at h
  split at h
  · cases h
  · split at h
    · next w hw =>
      cases h
      exact hw
    · cases h

/-- A list variable that a name refers to is found under its key. -/
theorem list?_key_of_classify {r : Resolver} {name : String} {v : ListVariable} {op : ListOperator}
    (h : r.classify name = .list v op) : r.catalog.list? v.key = some v := by
  have hv := (classify_eq_list_iff.mp h).1
  rw [Catalog.key_of_list? hv, hv]

/-- The type of what a name refers to. -/
def fieldType? (name : String) : Option FieldType :=
  match r.classify name with
  | .list _ op => some op.fieldType
  | .arithmetic _ => some .number
  | .base => r.schema.fieldTypeAt? name

/-- The operators that suit a name; none where its type is unknown. -/
def operators (name : String) : List Operator :=
  match r.fieldType? name with
  | none => []
  | some t => t.operators ++ commonOperators

/-- Whether an operator suits a name. -/
def allows (name : String) (op : Operator) : Bool := (r.operators name).contains op

/-- The names that a name refers to directly: those in the formula of an arithmetic variable. -/
def successors (name : String) : List String :=
  match r.classify name with
  | .arithmetic v => v.dependencies
  | _ => []

/-- All names that a name depends on through arithmetic variables, itself included. -/
def dependents (name : String) : List String :=
  reachable r.successors r.catalog.arithmetic.length [name]

/-- What a name depends on through arithmetic variables. -/
def dependencies (name : String) : Dependencies :=
  let names := r.dependents name
  { baseFields := sortedNames (names.filter fun n ↦ (r.classify n).isBase)
    listVariables := sortedNames (names.filter fun n ↦ (r.classify n).isList) }

/-- The formula of an arithmetic variable in which the arithmetic variables it names are replaced by
their formulas, `active` being replaced already; a name of an active one stays a field. -/
def expandWithin (read : String → Formula) :
    (fuel : Nat) → (active : List String) → (name : String) → Option Formula
  | 0, _, _ => none
  | fuel + 1, active, name => do
    let text ← (← r.catalog.arithmetic? name).formula?
    let active := name :: active
    some ((read text).substitute fun leaf ↦
      if active.contains leaf then none
      else
        match r.classify leaf with
        | .arithmetic _ => expandWithin read fuel active leaf
        | _ => none)

/-- The formula of an arithmetic variable down to paths and list variables, as far as it does not
name itself. There is none where the name is no arithmetic variable or its equation has no
formula. -/
def expand? (read : String → Formula) (name : String) : Option Formula :=
  r.expandWithin read r.catalog.arithmetic.length [] name

end Resolver

/-- Reads the formulas of variables as the settings say, with those kept in a store. -/
def Settings.readFormula (s : Settings) (kept : FormulaCache) (text : String) : Formula :=
  if s.useParseCache then (kept.parse text s.maxParseDepth).1
  else Formula.parseWithin s.maxParseDepth text

end FilterPipeline
