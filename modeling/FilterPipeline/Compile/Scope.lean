import FilterPipeline.Reference

/-!
# Scopes of conditions

Conditions in an element predicate are about the element at hand. Their references start there, and
their types are found by the path of the array in the schema.
-/

namespace FilterPipeline

/-- What the conditions of a block are about. -/
inductive Scope where
  | document
  /-- The elements of the array at a path of the schema. -/
  | element (array : String)
deriving DecidableEq

namespace Scope

/-- Where paths begin. -/
def fields : Scope → FieldScope
  | document => .document
  | element _ => .element

/-- The reference to a field. -/
def reference (scope : Scope) (field : String) : String := scope.fields.reference field

/-- The path of a field in the schema. -/
def schemaPath (scope : Scope) (field : String) : String :=
  match scope with
  | document => field
  | element array =>
    if beginsWith "$" field then field
    else
      match Text.afterStart? "this".toList field.toList with
      | some [] => array
      | some ('.' :: rest) => array ++ "." ++ String.ofList rest
      | _ => array ++ "." ++ field

end Scope
end FilterPipeline
