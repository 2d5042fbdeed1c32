import FilterPipeline.Text.Blank

/-!
# Operators of a condition

A condition compares a field with a value, or asks something about the elements of an array. The
operators of the second kind are list operators: quantifiers, the filter, and the aggregates. Every
operator has one key, which pipelines use too, and may be spelled in words by the editor.
-/

namespace FilterPipeline

/-- The six comparisons. -/
inductive Comparison where
  | eq
  | ne
  | gt
  | gte
  | lt
  | lte
deriving DecidableEq, Repr

/-- Whether some element of an array or every one must satisfy a predicate. -/
inductive Quantifier where
  | any
  | all
deriving DecidableEq, Repr

/-- The functions that reduce an array to a number. -/
inductive Aggregate where
  | min
  | max
  | avg
  | sum
deriving DecidableEq, Repr

/-- What can be asked about the elements of an array. -/
inductive ListOperator where
  | quantifier (q : Quantifier)
  /-- The elements that satisfy a predicate. -/
  | filter
  | aggregate (a : Aggregate)
deriving DecidableEq, Repr

/-- The operator of a condition. -/
inductive Operator where
  | compare (c : Comparison)
  /-- The value is one of several. -/
  | oneOf
  /-- The value is none of several. -/
  | noneOf
  /-- A regular expression matches. -/
  | regex
  | contains
  | startsWith
  | endsWith
  /-- The field is there. -/
  | present
  | isNumber
  /-- The value lies in a range, ends included. -/
  | between
  | notBetween
  /-- The array has more elements than a number. -/
  | longerThan
  /-- The array has fewer elements than a number. -/
  | shorterThan
  | list (op : ListOperator)
deriving DecidableEq, Repr

/-- The key of a comparison. -/
def Comparison.key : Comparison → String
  | eq => "$eq"
  | ne => "$ne"
  | gt => "$gt"
  | gte => "$gte"
  | lt => "$lt"
  | lte => "$lte"

/-- The key of a quantifier. -/
def Quantifier.key : Quantifier → String
  | any => "$anyElementTrue"
  | all => "$allElementsTrue"

/-- The key of an aggregate. -/
def Aggregate.key : Aggregate → String
  | min => "$min"
  | max => "$max"
  | avg => "$avg"
  | sum => "$sum"

/-- The key of a list operator. -/
def ListOperator.key : ListOperator → String
  | quantifier q => q.key
  | filter => "$filter"
  | aggregate a => a.key

namespace Operator

/-- All operators, in the order in which the editor offers them. -/
def all : List Operator :=
  [compare .eq, compare .ne, compare .gt, compare .gte, compare .lt, compare .lte, oneOf, noneOf,
    regex, contains, startsWith, endsWith, present, isNumber, between, notBetween, longerThan,
    shorterThan, list (.quantifier .any), list (.quantifier .all), list .filter,
    list (.aggregate .min), list (.aggregate .max), list (.aggregate .avg), list (.aggregate .sum)]

/-- The key of an operator, which is also its written name. -/
def key : Operator → String
  | compare c => c.key
  | oneOf => "$in"
  | noneOf => "$nin"
  | regex => "$regex"
  | contains => "$contains"
  | startsWith => "$startsWith"
  | endsWith => "$endsWith"
  | present => "$exists"
  | isNumber => "$isNumber"
  | between => "$between"
  | notBetween => "$notBetween"
  | longerThan => "$lengthGt"
  | shorterThan => "$lengthLt"
  | list op => op.key

/-- The other spellings of an operator. -/
def aliases : Operator → List String
  | compare .eq => ["equals", "=", "=="]
  | compare .ne => ["not equals", "!="]
  | compare .gt => ["greater than", ">"]
  | compare .gte => ["greater than or equal", ">="]
  | compare .lt => ["less than", "<"]
  | compare .lte => ["less than or equal", "<="]
  | oneOf => ["in"]
  | noneOf => ["not in"]
  | regex => ["regex"]
  | contains => ["contains", "like"]
  | startsWith => ["starts with"]
  | endsWith => ["ends with"]
  | present => ["exists"]
  | isNumber => ["is number"]
  | between => ["between"]
  | notBetween => ["not between"]
  | longerThan => ["length greater than"]
  | shorterThan => ["length less than"]
  | list (.quantifier .any) => ["anyTrue"]
  | list (.quantifier .all) => ["allTrue"]
  | list .filter => ["filter"]
  | list (.aggregate .min) => ["min"]
  | list (.aggregate .max) => ["max"]
  | list (.aggregate .avg) => ["avg"]
  | list (.aggregate .sum) => ["sum"]

/-- The operator that a text spells, blanks around it aside. -/
def parse? (s : String) : Option Operator :=
  let s := Text.trimmed s
  all.find? fun op ↦ op.key == s || op.aliases.contains s

/-- The comparison that an operator is. -/
def comparison? : Operator → Option Comparison
  | compare c => some c
  | _ => none

/-- The list operator that an operator is. -/
def list? : Operator → Option ListOperator
  | list op => some op
  | _ => none

end Operator
end FilterPipeline
