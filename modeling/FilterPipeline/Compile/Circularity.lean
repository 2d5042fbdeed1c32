import FilterPipeline.Compile.Entering
import FilterPipeline.Compile.Usage

/-!
# Circular definitions

A list variable whose element predicate names the variable again, directly or through others, cannot
be written out. What counts is not that it is named but that its element predicate is entered.
-/

namespace FilterPipeline
namespace Resolver

variable (r : Resolver)

/-- The list variables that a condition enters, given those that its element predicate does. -/
def conditionEntries (c : Condition) (element : List String) : List String :=
  match c.fieldName?, c.operator with
  | some field, some _ =>
    match r.classify field with
    | .list v _ => if v.isEntered then [v.key] else []
    | _ => if r.entersOperand c then element else []
  | _, _ => []

/-- Where the operand of a condition is entered, the condition enters what its operand does. -/
theorem conditionEntries_of_entersOperand {r : Resolver} {c : Condition} {element : List String}
    (h : r.entersOperand c = true) : r.conditionEntries c element = element := by
  unfold conditionEntries
  unfold entersOperand at h
  split at h
  · next field op hf ho =>
    simp only [hf, ho, entersOperand]
    cases hc : r.classify field with
    | list v l => simp [hc] at h
    | arithmetic v => simp_all
    | base => simp_all
  · cases h

/-- A complete condition enters the list variable that it is about, if writing that out does. -/
theorem mem_conditionEntries {r : Resolver} {c : Condition} {element : List String}
    {field : String} {op : Operator} {v : ListVariable} {l : ListOperator}
    (hf : c.fieldName? = some field) (ho : c.operator = some op)
    (hv : r.classify field = .list v l) (he : v.isEntered = true) :
    v.key ∈ r.conditionEntries c element := by
  simp [conditionEntries, hf, ho, hv, he]

mutual

/-- The list variables that a block enters. -/
def blockEntries : Block → List String
  | ⟨_, _, children, _, _⟩ => nodeEntries children

/-- The list variables that nodes enter. -/
def nodeEntries : List Node → List String
  | [] => []
  | .block b :: rest => blockEntries b ++ nodeEntries rest
  | .condition c@⟨_, _, _, operand, _⟩ :: rest =>
    r.conditionEntries c (elementEntries operand) ++ nodeEntries rest

/-- The list variables that the element predicate of an operand enters. -/
def elementEntries : Operand → List String
  | .literal _ => []
  | .nested b => blockEntries b
  | .list ⟨_, _, _, operand, _, _, _⟩ =>
    match operand with
    | .nested b => blockEntries b
    | _ => []

end

/-- A condition among nodes enters what it does with its element predicate. -/
theorem nodeEntries_condition (c : Condition) (rest : List Node) :
    r.nodeEntries (.condition c :: rest) =
      r.conditionEntries c (r.elementEntries c.operand) ++ r.nodeEntries rest := by
  cases c
  rw [nodeEntries]

/-- Nodes behind others enter what they do behind what these do. -/
theorem nodeEntries_append (nodes rest : List Node) :
    r.nodeEntries (nodes ++ rest) = r.nodeEntries nodes ++ r.nodeEntries rest := by
  induction nodes with
  | nil => rfl
  | cons n nodes ih =>
    cases n with
    | block b => rw [List.cons_append, nodeEntries, nodeEntries, ih, List.append_assoc]
    | condition c =>
      rw [List.cons_append, nodeEntries_condition, nodeEntries_condition, ih, List.append_assoc]

/-- The list variables that the element predicate of a list variable enters. -/
def definitionEntries (name : String) : List String :=
  ((r.catalog.list? name).map fun v ↦ r.elementEntries (.list v.condition)).getD []

/-- The list variables that are entered from some, those included. -/
def entered (names : List String) : List String :=
  reachable r.definitionEntries r.catalog.lists.length names

/-- Whether the element predicate of a list variable enters the variable again. -/
def entersItself (name : String) : Bool := (r.entered (r.definitionEntries name)).contains name

/-- The list variables whose element predicates the projection of used ones enters. -/
def projectedEntries (lists : List String) : List String :=
  lists.filter fun name ↦
    match r.classify name with
    | .list v .filter => v.isEntered
    | _ => false

/-- Whether compiling a filter with some usage would never end. -/
def isCircular (blocks : List Block) (usage : Usage) : Bool :=
  (r.entered (blocks.flatMap r.blockEntries ++ r.projectedEntries usage.listVariables)).any
    r.entersItself

end Resolver
end FilterPipeline
