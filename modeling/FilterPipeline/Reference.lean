import FilterPipeline.Text.Replacement

/-!
# References to fields

Inside an aggregation expression a field is referred to by a string with a dollar sign in front: one
for a path from the document's root, two for a path from the array element at hand.
-/

namespace FilterPipeline

/-- Where the path of a field begins. -/
inductive FieldScope where
  /-- At the root of the document. -/
  | document
  /-- At the array element at hand. -/
  | element
deriving DecidableEq, Repr

/-- Whether a text begins with another one. -/
def beginsWith (start s : String) : Bool := (Text.afterStart? start.toList s.toList).isSome

/-- Whether a path is written relative to the array element at hand. -/
def isElementPath (path : String) : Bool := path == "this" || beginsWith "this." path

/-- The reference to a path. A path that is a reference already stays one, and `this` is the element
at hand in either scope. -/
def FieldScope.reference (scope : FieldScope) (path : String) : String :=
  if beginsWith "$" path then path
  else if isElementPath path then "$$" ++ path
  else
    match scope with
    | .document => "$" ++ path
    | .element => "$$this." ++ path

end FilterPipeline
