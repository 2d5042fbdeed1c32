import FilterPipeline.Resolver

/-!
# What a filter uses

The projection stage has to keep every path that the match stage reads, and to compute every list
variable and every negated named block that it refers to. The usage of a filter collects them.
Conditions of element predicates are read through their array; of them only the list variables
count, and the list variables that the definitions of those name.
-/

namespace FilterPipeline

/-- What a filter uses. -/
structure Usage where
  /-- The paths, in order. -/
  baseFields : List String
  /-- The arithmetic variables, in order. -/
  arithmeticVariables : List String
  /-- The list variables, in order. -/
  listVariables : List String
  /-- The negated named blocks in the order of the filter, with the names they are computed
  under. -/
  negatedBlocks : List (String × Block)

mutual

/-- The complete conditions of a block outside negated named blocks. -/
def Block.plainConditions : Block → List Condition
  | b@⟨_, _, children, _, _⟩ => if b.isNegatedNamed then [] else Node.plainConditions children

/-- The complete conditions of several nodes outside negated named blocks. -/
def Node.plainConditions : List Node → List Condition
  | [] => []
  | .block b :: rest => Block.plainConditions b ++ Node.plainConditions rest
  | .condition c :: rest =>
    if c.isComplete then c :: Node.plainConditions rest else Node.plainConditions rest

end

mutual

/-- The outermost negated named blocks of a block. -/
def Block.negatedBlocks : Block → List Block
  | b@⟨_, _, children, _, _⟩ => if b.isNegatedNamed then [b] else Node.negatedBlocks children

/-- The outermost negated named blocks of several nodes. -/
def Node.negatedBlocks : List Node → List Block
  | [] => []
  | .block b :: rest => Block.negatedBlocks b ++ Node.negatedBlocks rest
  | .condition _ :: rest => Node.negatedBlocks rest

end

mutual

/-- The complete conditions of the element predicate of an operand, at any depth. -/
def Operand.elementConditions : Operand → List Condition
  | .literal _ => []
  | .nested b => Block.elementConditions b
  | .list ⟨_, _, _, operand, _, _, _⟩ => Operand.elementConditions operand

/-- The complete conditions of a block in an element predicate. -/
def Block.elementConditions : Block → List Condition
  | ⟨_, _, children, _, _⟩ => Node.elementConditionsAll children

/-- The complete conditions of several nodes in an element predicate. -/
def Node.elementConditionsAll : List Node → List Condition
  | [] => []
  | n :: rest => Node.elementConditions n ++ Node.elementConditionsAll rest

/-- The complete conditions of a node in an element predicate. -/
def Node.elementConditions : Node → List Condition
  | .block b => Block.elementConditions b
  | .condition c@⟨_, _, _, operand, _⟩ =>
    if c.isComplete then c :: Operand.elementConditions operand else []

end

/-- A block that is no negated named one has the conditions of its children. -/
theorem Block.plainConditions_of_plain {b : Block} (h : b.isNegatedNamed = false) :
    b.plainConditions = Node.plainConditions b.children := by
  cases b
  rw [plainConditions, if_neg (by simp [h])]

/-- A block that is no negated named one has the negated named blocks of its children. -/
theorem Block.negatedBlocks_of_plain {b : Block} (h : b.isNegatedNamed = false) :
    b.negatedBlocks = Node.negatedBlocks b.children := by
  cases b
  rw [negatedBlocks, if_neg (by simp [h])]

/-- Nodes behind others have their conditions behind those that these have. -/
theorem Node.plainConditions_append (nodes rest : List Node) :
    Node.plainConditions (nodes ++ rest) =
      Node.plainConditions nodes ++ Node.plainConditions rest := by
  induction nodes with
  | nil => rfl
  | cons n nodes ih =>
    cases n with
    | block b =>
      rw [List.cons_append, plainConditions, plainConditions, ih, List.append_assoc]
    | condition c =>
      rw [List.cons_append, plainConditions, plainConditions, ih]
      split <;> rfl

/-- Nodes behind others have their negated named blocks behind those that these have. -/
theorem Node.negatedBlocks_append (nodes rest : List Node) :
    Node.negatedBlocks (nodes ++ rest) = Node.negatedBlocks nodes ++ Node.negatedBlocks rest := by
  induction nodes with
  | nil => rfl
  | cons n nodes ih =>
    cases n with
    | block b => rw [List.cons_append, negatedBlocks, negatedBlocks, ih, List.append_assoc]
    | condition c => rw [List.cons_append, negatedBlocks, negatedBlocks, ih]

/-- Nodes behind others in an element predicate have their conditions behind those of these. -/
theorem Node.elementConditionsAll_append (nodes rest : List Node) :
    Node.elementConditionsAll (nodes ++ rest) =
      Node.elementConditionsAll nodes ++ Node.elementConditionsAll rest := by
  induction nodes with
  | nil => rfl
  | cons n nodes ih =>
    rw [List.cons_append, elementConditionsAll, elementConditionsAll, ih, List.append_assoc]

namespace Resolver

variable (r : Resolver)

/-- The list variables that a condition's field is or depends on. -/
def conditionLists (c : Condition) : List String :=
  match c.fieldName? with
  | none => []
  | some field =>
    match r.classify field with
    | .list .. => [field]
    | .arithmetic _ => (r.dependencies field).listVariables
    | .base => []

/-- The paths that a condition's field is or depends on. -/
def conditionPaths (c : Condition) : List String :=
  match c.fieldName? with
  | none => []
  | some field =>
    match r.classify field with
    | .list .. => []
    | .arithmetic _ => (r.dependencies field).baseFields
    | .base => [field]

/-- The arithmetic variable that a condition's field is. -/
def conditionVariables (c : Condition) : List String :=
  match c.fieldName? with
  | none => []
  | some field =>
    match r.classify field with
    | .arithmetic _ => [field]
    | _ => []

/-- The list variables of an element predicate. -/
def elementLists (operand : Operand) : List String :=
  operand.elementConditions.flatMap r.conditionLists

/-- The list variables that the definition of a list variable names. -/
def definitionLists (name : String) : List String :=
  ((r.catalog.list? name).map fun v ↦ r.elementLists v.condition.operand).getD []

/-- The array that a list variable is about. -/
def definitionArrays (name : String) : List String :=
  ((r.catalog.list? name).bind (·.condition.arrayPath?)).toList

end Resolver

namespace Usage

/-- The name of the `n`-th attempt to find a free one for a block: the name itself, then with the
block's id behind it, then with a number behind that. -/
def candidate (name id : String) : (n : Nat) → String
  | 0 => name
  | 1 => name ++ "_" ++ sanitizeName id
  | n => name ++ "_" ++ sanitizeName id ++ "_" ++ toString n

/-- A name for a block that none of the taken ones equals. -/
def freeName (taken : List String) (name id : String) : String :=
  (((List.range (taken.length + 1)).map (candidate name id)).find? (!taken.contains ·)).getD name

/-- Registers a negated named block, unless an equal one is registered already. -/
def register (blocks : List (String × Block)) (b : Block) : List (String × Block) :=
  match b.materializedName? with
  | none => blocks
  | some name =>
    if blocks.any (·.2.same b) then blocks
    else blocks ++ [(freeName (blocks.map (·.1)) name b.id, b)]

/-- What the root blocks of a filter use. -/
def ofBlocks (r : Resolver) (blocks : List Block) : Usage :=
  let conditions := blocks.flatMap Block.plainConditions
  let lists := reachable r.definitionLists r.catalog.lists.length
    (conditions.flatMap fun c ↦ r.conditionLists c ++ r.elementLists c.operand)
  { baseFields := sortedNames
      (conditions.flatMap (fun c ↦
        r.conditionPaths c ++ (c.operand.list?.bind ListCondition.arrayPath?).toList) ++
        lists.flatMap r.definitionArrays)
    arithmeticVariables := sortedNames (conditions.flatMap r.conditionVariables)
    listVariables := sortedNames lists
    negatedBlocks := (blocks.flatMap Block.negatedBlocks).foldl register [] }

/-- Whether nothing is used. -/
def isEmpty (u : Usage) : Bool :=
  u.baseFields.isEmpty && u.arithmeticVariables.isEmpty && u.listVariables.isEmpty &&
    u.negatedBlocks.isEmpty

end Usage
end FilterPipeline
