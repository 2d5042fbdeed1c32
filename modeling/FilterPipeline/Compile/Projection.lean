import FilterPipeline.Compile.ExpressionForm
import FilterPipeline.Compile.Usage

/-!
# The projection stage

The projection keeps the paths that are used and computes list variables and negated named blocks
under names of their own. A path below another kept path is kept with it and not named again.
-/

namespace FilterPipeline

/-- The projection of a filter, and what it computes. -/
structure Projection where
  members : Members
  /-- The list variables that have a field of their own. -/
  lists : List String
  /-- The negated named blocks that have a field of their own, with its name. -/
  blocks : List (String × Block)

/-- The paths that lead to a path: what stands before each dot. -/
def ancestorsAfter (before : List Char) : List Char → List String
  | [] => []
  | c :: cs =>
    if c = '.' then String.ofList before.reverse :: ancestorsAfter (c :: before) cs
    else ancestorsAfter (c :: before) cs

/-- The paths that lead to a path. -/
def ancestors (path : String) : List String := ancestorsAfter [] path.toList

namespace Generator

variable (g : Generator)

/-- The paths that the projection keeps. -/
def keptPaths (used always : List String) : List String :=
  let paths := sortedNames ((used ++ always).filterMap Text.trimmed?)
  paths.filter fun path ↦ !(ancestors path).any paths.contains

/-- The expression that a list variable is computed by, if it has a field of its own: quantifiers
have none. -/
def listField? (name : String) : Option Json := do
  let v ← g.resolver.catalog.list? name
  match ← v.operator? with
  | .quantifier _ => none
  | .filter => (g.variableQuery? v).map ListQuery.filteredExpr
  | .aggregate _ => (g.variableQuery? v).map ListQuery.aggregateExpr

/-- The projection of a filter with some usage. -/
def projection (always : List String) (usage : Usage) : Projection :=
  if usage.isEmpty then ⟨[], [], []⟩
  else
    let paths := (keptPaths usage.baseFields always).map fun path ↦ (path, Json.int 1)
    let lists := usage.listVariables.filterMap fun name ↦ (g.listField? name).map (name, ·)
    let blocks := usage.negatedBlocks.filterMap fun (name, b) ↦
      (g.childrenExpr .document b).map fun e ↦ (name, e, b)
    { members := Members.ofList (paths ++ lists ++ blocks.map fun (name, e, _) ↦ (name, e))
      lists := lists.map (·.1)
      blocks := blocks.map fun (name, _, b) ↦ (name, b) }

end Generator
end FilterPipeline
