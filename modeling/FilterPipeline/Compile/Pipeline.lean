import FilterPipeline.Json.Basic

/-!
# Pipelines

A pipeline is a projection and a match, each of which may be missing.
-/

namespace FilterPipeline

/-- A stage of a pipeline with its content. -/
inductive Stage where
  | project (content : Members)
  | filter (content : Members)

namespace Stage

/-- The key of a stage. -/
def key : Stage → String
  | project _ => "$project"
  | filter _ => "$match"

/-- The content of a stage. -/
def content : Stage → Members
  | project content | filter content => content

/-- A stage as a value. -/
def toJson (s : Stage) : Json := .single s.key (.obj s.content)

end Stage

/-- The stages that documents pass through. -/
structure Pipeline where
  projection : Option Members
  filter : Option Members

namespace Pipeline

/-- The stages in order. -/
def stages (p : Pipeline) : List Stage :=
  (p.projection.map Stage.project).toList ++ (p.filter.map Stage.filter).toList

/-- Whether there is no stage. -/
def isEmpty (p : Pipeline) : Bool := p.stages.isEmpty

/-- A pipeline as a value. -/
def toJson (p : Pipeline) : Json := .arr (p.stages.map Stage.toJson)

end Pipeline
end FilterPipeline
