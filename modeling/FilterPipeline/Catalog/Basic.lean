import FilterPipeline.Catalog.Variable
import FilterPipeline.Names
import FilterPipeline.Schema.Lookup

/-!
# Catalogs of saved variables

A catalog holds the variables that filters may name. The first of several variables with one name
counts. A valid catalog fits its schema and has no arithmetic variable that depends on itself.
-/

namespace FilterPipeline

/-- The saved variables. -/
structure Catalog where
  arithmetic : List ArithmeticVariable
  lists : List ListVariable

namespace Catalog

/-- The catalog without variables. -/
def empty : Catalog := ⟨[], []⟩

/-- The arithmetic variable that a name refers to. -/
def arithmetic? (c : Catalog) (name : String) : Option ArithmeticVariable :=
  c.arithmetic.find? (·.key == name)

/-- The list variable that a name refers to. -/
def list? (c : Catalog) (name : String) : Option ListVariable := c.lists.find? (·.key == name)

/-- A list variable is found under its key. -/
theorem key_of_list? {c : Catalog} {name : String} {v : ListVariable} (h : c.list? name = some v) :
    v.key = name := by
  simpa using List.find?_some h

/-- A list variable that is found is one of the catalog. -/
theorem mem_of_list? {c : Catalog} {name : String} {v : ListVariable} (h : c.list? name = some v) :
    v ∈ c.lists := List.mem_of_find?_eq_some h

/-- An arithmetic variable is found under its key. -/
theorem key_of_arithmetic? {c : Catalog} {name : String} {v : ArithmeticVariable}
    (h : c.arithmetic? name = some v) : v.key = name := by
  simpa using List.find?_some h

/-- An arithmetic variable that is found is one of the catalog. -/
theorem mem_of_arithmetic? {c : Catalog} {name : String} {v : ArithmeticVariable}
    (h : c.arithmetic? name = some v) : v ∈ c.arithmetic := List.mem_of_find?_eq_some h

/-- A name under which an arithmetic variable is found is one of the keys. -/
theorem mem_keys_of_arithmetic? {c : Catalog} {name : String} {v : ArithmeticVariable}
    (h : c.arithmetic? name = some v) : name ∈ c.arithmetic.map ArithmeticVariable.key :=
  List.mem_map.mpr ⟨v, mem_of_arithmetic? h, key_of_arithmetic? h⟩

/-- Adds an arithmetic variable behind the others. -/
def addArithmetic (c : Catalog) (v : ArithmeticVariable) : Catalog :=
  { c with arithmetic := c.arithmetic ++ [v] }

/-- Adds a list variable behind the others. -/
def addList (c : Catalog) (v : ListVariable) : Catalog := { c with lists := c.lists ++ [v] }

/-- The names that the arithmetic variable with a name depends on directly. -/
def dependencies (c : Catalog) (name : String) : List String :=
  ((c.arithmetic? name).map ArithmeticVariable.dependencies).getD []

/-- Whether the arithmetic variable with a name depends on itself. -/
def isCyclic (c : Catalog) (name : String) : Bool :=
  (reachable c.dependencies c.arithmetic.length (c.dependencies name)).contains name

/-- Accepts a list variable without fault whose name is no path of the schema. -/
def validateList (s : Schema) (v : ListVariable) : Except Fault Unit := do
  v.validate
  if (s.typeAt? v.key).isSome then .error (.nameCollision v.key) else .ok ()

/-- Accepts an arithmetic variable that has a formula and does not depend on itself. -/
def validateArithmetic (c : Catalog) (v : ArithmeticVariable) : Except Fault Unit :=
  if v.formula?.isNone then .error (.arithmetic (.noExpression v.name v.equation))
  else if c.isCyclic v.name then .error (.cyclicVariable v.name)
  else .ok ()

/-- Accepts a catalog all of whose variables are valid; list variables are looked at first. -/
def validate (c : Catalog) (s : Schema) : Except Fault Unit := do
  c.lists.forM (validateList s)
  c.arithmetic.forM c.validateArithmetic

private theorem forM_eq_ok_iff {α : Type} {check : α → Except Fault Unit} {xs : List α} :
    xs.forM check = .ok () ↔ ∀ x ∈ xs, check x = .ok () := by
  induction xs with
  | nil => simp [List.forM, pure, Except.pure]
  | cons x xs ih =>
    rw [List.forall_mem_cons, ← ih]
    cases h : check x with
    | error fault => simp [List.forM, bind, Except.bind, h]
    | ok u => simp [List.forM, bind, Except.bind, h]

/-- Where all list variables are valid, the arithmetic ones decide. -/
theorem validate_eq_of_lists {c : Catalog} {s : Schema}
    (h : ∀ v ∈ c.lists, validateList s v = .ok ()) :
    c.validate s = c.arithmetic.forM c.validateArithmetic := by
  rw [validate, forM_eq_ok_iff.mpr h]
  rfl

/-- A catalog is valid when each of its variables is. -/
theorem validate_eq_ok_iff {c : Catalog} {s : Schema} : c.validate s = .ok () ↔
    (∀ v ∈ c.lists, validateList s v = .ok ()) ∧
      ∀ v ∈ c.arithmetic, c.validateArithmetic v = .ok () := by
  rw [← forM_eq_ok_iff, ← forM_eq_ok_iff, validate]
  cases h : c.lists.forM (validateList s) with
  | error fault => simp [bind, Except.bind]
  | ok u => simp [bind, Except.bind]

end Catalog
end FilterPipeline
