import FilterPipeline.Text.Quoted

/-!
# Faults

What can be wrong with a document, a schema, a saved variable or an edit. Compiling a filter has no
faults of its own: what is incomplete contributes nothing.
-/

namespace FilterPipeline

/-- What can be wrong with a schema; a field is named by its owner where it has one. -/
inductive SchemaFault where
  | rootNotRecord (kind : String)
  | unnamedField
  | emptyTypeName (owner : String)
  | emptyUnion (owner : String)
  | nestedUnion (owner : String)
  | recordWithoutFields (owner : String)
  | arrayWithoutItems (owner : String)
  | missingType (owner : String)
deriving DecidableEq, Repr

/-- What can be wrong with an arithmetic variable. -/
inductive VariableFault where
  | notOneEquation (equation : String)
  | emptySide (equation : String)
  | badName (name : String)
  | noExpression (name equation : String)
deriving DecidableEq, Repr

/-- What can be wrong with a list variable of some name. -/
inductive ListVariableFault where
  | nameTooShort
  | nameTooLong
  | badName
  | noArray
  | noOperator
  | notListOperator (operator : String)
  | noSubField (operator : String)
  | noElementCondition
deriving DecidableEq, Repr

/-- What can be wrong with an input or an edit. -/
inductive Fault where
  /-- A document is no JSON, or does not fit the model. -/
  | malformedDocument
  | schema (fault : SchemaFault)
  | arithmetic (fault : VariableFault)
  | listVariable (name : String) (fault : ListVariableFault)
  /-- A list variable has the path of a schema field. -/
  | nameCollision (name : String)
  /-- An arithmetic variable depends on itself. -/
  | cyclicVariable (name : String)
  | nodeNotFound (id : String)
  | notABlock (id : String)
  | notACondition (id : String)
deriving DecidableEq, Repr

/-- The text of a fault of a schema. -/
def SchemaFault.message : SchemaFault → String
  | rootNotRecord kind => "root must be a record, got " ++ kind
  | unnamedField => "field with empty name"
  | emptyTypeName owner => "empty type name for field " ++ owner
  | emptyUnion owner => "empty union for field " ++ owner
  | nestedUnion owner => "nested union for field " ++ owner
  | recordWithoutFields owner => "record without fields for field " ++ owner
  | arrayWithoutItems owner => "array without items for field " ++ owner
  | missingType owner => "missing type for field " ++ owner

/-- The text of a fault of an arithmetic variable. -/
def VariableFault.message : VariableFault → String
  | notOneEquation equation => "equation must contain exactly one '=': " ++ equation
  | emptySide equation => "both sides of the equation must be non-empty: " ++ equation
  | badName name => "invalid variable name: " ++ name
  | noExpression name equation => name ++ " has no expression: " ++ Text.quoted equation

/-- The text of a fault of the list variable with a name. -/
def ListVariableFault.message (name : String) : ListVariableFault → String
  | nameTooShort => "name must be at least 3 characters: " ++ Text.quoted name
  | nameTooLong => "name must be at most 50 characters: " ++ Text.quoted name
  | badName =>
    "name may only contain letters, digits, spaces, '_' and '-': " ++ Text.quoted name
  | noArray => name ++ " has no array field"
  | noOperator => name ++ " has no operator"
  | notListOperator operator => name ++ " uses non-list operator " ++ operator
  | noSubField operator => name ++ " needs a sub-field for " ++ operator
  | noElementCondition => name ++ " needs at least one element condition"

/-- The text of a fault. -/
def Fault.message : Fault → String
  | malformedDocument => "Deserialization error"
  | schema fault => "Invalid schema: " ++ fault.message
  | arithmetic fault => "Invalid variable: " ++ fault.message
  | listVariable name fault => "Invalid list variable: " ++ fault.message name
  | nameCollision name => "List variable name collides with schema field: " ++ name
  | cyclicVariable name => "Variable references itself through " ++ name
  | nodeNotFound id => "Node not found: " ++ id
  | notABlock id => "Node is not a block: " ++ id
  | notACondition id => "Node is not a condition: " ++ id

end FilterPipeline
