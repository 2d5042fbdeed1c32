import FilterPipeline.Compile.Circularity
import FilterPipeline.Compile.Pipeline
import FilterPipeline.Compile.QueryForm

/-!
# Compiling a filter

The usage of a filter decides what the projection computes, and the match is compiled against just
that. What is incomplete contributes nothing. The only filters without a pipeline are those that
enter circular definitions.
-/

namespace FilterPipeline

/-- Adds one member of a root's query to the match. A key that is there already goes under `$and`
with the member's value, and the parts of a second `$and` are added to the first. -/
def mergeMember (target : Members) (key : String) (value : Json) : Members :=
  if !target.has key then target.insert key value
  else
    let moved := match key, value with
      | "$and", .arr more => more
      | _, value => [.single key value]
    match target.get? "$and" with
    | none => target.insert "$and" (.arr moved)
    | some (.arr items) => target.insert "$and" (.arr (items ++ moved))
    | some _ => target

/-- Adds the query of a root to the match. -/
def mergeRoot (target : Members) : Json → Members
  | .obj members => members.foldl (fun target (key, value) ↦ mergeMember target key value) target
  | _ => target

/-- Everything that compiling looks at besides the filter. -/
structure Context where
  schema : Schema
  catalog : Catalog
  settings : Settings

namespace Context

/-- The context in which nothing is known and nothing is set. -/
def default : Context := ⟨.empty, .empty, .default⟩

variable (ctx : Context)

/-- What names refer to. -/
def resolver : Resolver := ⟨ctx.schema, ctx.catalog⟩

/-- What a filter uses. -/
def usage (blocks : List Block) : Usage := .ofBlocks ctx.resolver blocks

/-- Reads the formula of a variable. -/
def readFormula (text : String) : Formula := ctx.settings.readFormula .empty text

/-- The generator that writes list variables out as deep as definitions that are not circular go. -/
def generator : Generator :=
  Generator.withLevels
    { resolver := ctx.resolver
      regexOptions := ctx.settings.regexOptions
      readFormula := ctx.readFormula
      definition := fun _ ↦ none }
    ctx.catalog.lists.length

/-- The projection of a filter. -/
def projection (blocks : List Block) : Projection :=
  ctx.generator.projection ctx.settings.alwaysProject (ctx.usage blocks)

/-- The content of the match of a filter. -/
def filterMembers (blocks : List Block) : Members :=
  let p := ctx.projection blocks
  (blocks.filterMap (ctx.generator.blockQuery p)).foldl mergeRoot []

/-- The pipeline of a filter, unless it enters circular definitions. -/
def compile? (blocks : List Block) : Option Pipeline :=
  if ctx.resolver.isCircular blocks (ctx.usage blocks) then none
  else
    let nonempty (members : Members) : Option Members :=
      if members.isEmpty then none else some members
    some {
      projection := nonempty (ctx.projection blocks).members
      filter := nonempty (ctx.filterMembers blocks) }

end Context
end FilterPipeline
