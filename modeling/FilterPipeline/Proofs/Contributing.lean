import FilterPipeline.Compile.QueryForm
import FilterPipeline.Proofs.SameBlocks

/-!
# What is compiled to something

Incomplete conditions, and those whose literal does not suit their operator, are compiled to
nothing, and blocks of nothing else are. Main statements: which conditions and blocks are compiled
to something can be read off them, alike for both forms, and does not depend on the signs of zeros.
-/

namespace FilterPipeline

/-- Whether an operator can compare with a literal: a range needs two ends and a length a number,
and a question about elements is no comparison. -/
def Operator.suits (v : Json) : Operator → Bool
  | .between | .notBetween => v.rangeBounds?.isSome
  | .longerThan | .shorterThan => v.number?.isSome
  | .list _ => false
  | _ => true

/-- Whether an operator can ask its question about a path with an operand. -/
def Operand.suits (op : Operator) : Operand → Bool
  | .list d => (op.list?.or d.listOperator?).isSome && d.arrayPath?.isSome
  | operand =>
    match op with
    | .list _ => true
    | op => operand.literal?.any fun v ↦ op.suits v

/-- Whether an operator can ask its question about a list variable. -/
def ListVariable.suits (v : ListVariable) (op : Operator) (literal : Json) :
    (l : ListOperator) → Bool
  | .quantifier _ => v.condition.arrayPath?.isSome
  | .aggregate _ => v.condition.arrayPath?.isSome && op.suits literal
  | .filter => v.condition.arrayPath?.isSome &&
    match op with
    | .longerThan | .shorterThan | .present => op.suits literal
    | _ => true

private theorem Json.isSome_number?_unsigned (v : Json) :
    v.unsigned.number?.isSome = v.number?.isSome := by
  cases v <;> rfl

private theorem Json.isSome_rangeBounds?_unsigned (v : Json) :
    v.unsigned.rangeBounds?.isSome = v.rangeBounds?.isSome := by
  match v with
  | .null | .bool _ | .int _ | .double _ | .str _ | .obj _ | .arr [] | .arr [_] | .arr [_, _]
  | .arr (_ :: _ :: _ :: _) => rfl

/-- Whether a literal suits an operator does not depend on the signs of zeros. -/
@[simp] theorem Operator.suits_unsigned (op : Operator) (v : Json) :
    op.suits v.unsigned = op.suits v := by
  cases op with
  | between | notBetween => exact v.isSome_rangeBounds?_unsigned
  | longerThan | shorterThan => exact v.isSome_number?_unsigned
  | _ => rfl

/-- The literal of an operand without signs on zeros. -/
@[simp] theorem Operand.literal?_unsigned (operand : Operand) :
    operand.unsigned.literal? = operand.literal?.map Json.unsigned := by
  cases operand with
  | literal v => rfl
  | nested b => rfl
  | list d =>
    cases d
    rfl

/-- Whether a list variable suits an operator does not depend on the signs of zeros. -/
@[simp] theorem ListVariable.suits_unsigned (v : ListVariable) (op : Operator) (literal : Json)
    (l : ListOperator) : v.suits op literal.unsigned l = v.suits op literal l := by
  cases l with
  | quantifier k => rfl
  | aggregate a => simp [suits]
  | filter => cases op <;> simp [suits]

/-- Whether an operand suits an operator does not depend on the signs of zeros. -/
@[simp] theorem Operand.suits_unsigned (op : Operator) (operand : Operand) :
    operand.unsigned.suits op = operand.suits op := by
  cases operand with
  | literal v => cases op <;> simp [Operand.unsigned, Operand.suits, Operand.literal?]
  | nested b => cases op <;> rfl
  | list d =>
    cases d
    rfl

namespace Generator

variable (g : Generator)

/-- Whether a condition is compiled to something. -/
def contributes (c : Condition) : Bool :=
  match c.fieldName?, c.operator with
  | some field, some op =>
    match g.resolver.classify field with
    | .list v l => v.suits op (c.operand.literal?.getD .null) l
    | .arithmetic _ =>
      if (g.resolver.expand? g.readFormula field).isSome then
        c.operand.literal?.any fun v ↦ op.suits v
      else c.operand.suits op
    | .base => c.operand.suits op
  | _, _ => false

mutual

/-- Whether a block is compiled to something: some child of it is. -/
def blockContributes : Block → Bool
  | ⟨_, _, children, _, _⟩ => nodesContribute children

/-- Whether some node is compiled to something. -/
def nodesContribute : List Node → Bool
  | [] => false
  | .block b :: rest => blockContributes b || nodesContribute rest
  | .condition c :: rest => g.contributes c || nodesContribute rest

end

variable {g}

section Conditions

variable {lhs v : Json} {field : String} {op : Operator} {type : Option FieldType}
  {operand : Operand} {scope : Scope} {c : Condition} {element : Option Json}

/-- An expression is compared with the literals that suit the operator. -/
theorem isSome_compareExpr : (g.compareExpr lhs op v type).isSome = op.suits v := by
  cases op with
  | between | notBetween | longerThan | shorterThan =>
    simp [compareExpr, Operator.suits, Option.isSome_bind]
  | _ => rfl

/-- A list condition asks a question when it has a list operator and an array. -/
theorem isSome_ofListCondition? {d : ListCondition} {outer : Option Operator} :
    (ListQuery.ofListCondition? d outer scope element).isSome =
      (((outer.bind Operator.list?).or d.listOperator?).isSome && d.arrayPath?.isSome) := by
  simp only [ListQuery.ofListCondition?, Option.bind_eq_bind]
  cases (outer.bind Operator.list?).or d.listOperator? with
  | none => rfl
  | some l => cases d.arrayPath? <;> rfl

private theorem isSome_baseExpr :
    (g.baseExpr scope field op operand element).isSome = operand.suits op := by
  cases operand with
  | list d => simp [baseExpr, Operand.suits, isSome_ofListCondition?]
  | literal v => cases op <;> simp [baseExpr, Operand.suits, Operand.literal?, isSome_compareExpr]
  | nested b => cases op <;> simp [baseExpr, Operand.suits, Operand.literal?]

/-- What a list variable asks has the list operator that the variable is defined with. -/
theorem op_of_variableQuery? {v : ListVariable} {l : ListOperator} {q : ListQuery}
    (hl : v.operator? = some l) (hq : g.variableQuery? v = some q) : q.op = l := by
  have hl : v.condition.listOperator? = some l := hl
  simp only [variableQuery?, ListQuery.ofListCondition?, Option.bind_none, Option.none_or, hl,
    Option.bind_eq_bind, Option.bind_some, Option.bind_eq_some_iff] at hq
  obtain ⟨_, -, hq⟩ := hq
  cases hq
  rfl

/-- A list variable asks a question when its definition has an array. -/
theorem isSome_variableQuery? {v : ListVariable} {l : ListOperator} (hl : v.operator? = some l) :
    (g.variableQuery? v).isSome = v.condition.arrayPath?.isSome := by
  have hl : v.condition.listOperator? = some l := hl
  simp [variableQuery?, isSome_ofListCondition?, hl]

private theorem isSome_listReferenceExpr {v : ListVariable} {l : ListOperator}
    (hl : v.operator? = some l) :
    (g.listReferenceExpr c op v).isSome = v.suits op (c.operand.literal?.getD .null) l := by
  have harray := isSome_variableQuery? (g := g) hl
  simp only [listReferenceExpr, Option.bind_eq_bind]
  cases hq : g.variableQuery? v with
  | none =>
    rw [hq] at harray
    cases l <;> simp [ListVariable.suits, ← harray]
  | some q =>
    rw [hq] at harray
    rw [Option.bind_some, op_of_variableQuery? hl hq]
    cases l with
    | quantifier k => simp [ListVariable.suits, ← harray]
    | aggregate a => simp [ListVariable.suits, ← harray, Option.isSome_bind, isSome_compareExpr]
    | filter =>
      simp only [ListVariable.suits, ← harray]
      cases op <;> simp [arrayExpr, Option.isSome_bind, isSome_compareExpr]

private theorem isSome_conditionExpr :
    (g.conditionExpr scope c element).isSome = g.contributes c := by
  simp only [conditionExpr, contributes, Option.bind_eq_bind]
  cases c.fieldName? with
  | none => rfl
  | some field =>
    cases c.operator with
    | none => rfl
    | some op =>
      simp only [Option.bind_some]
      cases hv : g.resolver.classify field with
      | list v l => exact isSome_listReferenceExpr (Resolver.classify_eq_list_iff.mp hv).2
      | base => simp [Option.isSome_bind, isSome_baseExpr]
      | arithmetic v =>
        cases g.resolver.expand? g.readFormula field with
        | none => simp [Option.isSome_bind, isSome_baseExpr]
        | some t => simp [Option.isSome_bind, isSome_compareExpr]

end Conditions

/-- A combination is there when it has a part. -/
theorem isSome_combine (logic : Logic) (parts : List Json) :
    (logic.combine parts).isSome = !parts.isEmpty := by
  match parts with
  | [] | [_] | _ :: _ :: _ => rfl

mutual

private theorem isSome_blockExpr (scope : Scope) : (b : Block) →
    (g.blockExpr scope b).isSome = g.blockContributes b
  | ⟨_, logic, children, _, _⟩ => by
    rw [blockExpr, Option.isSome_map, isSome_combine, blockContributes, isEmpty_nodeExprs scope,
      Bool.not_not]

private theorem isEmpty_nodeExprs (scope : Scope) : (nodes : List Node) →
    (g.nodeExprs scope nodes).isEmpty = !g.nodesContribute nodes
  | [] => rfl
  | .block b :: rest => by
    rw [nodeExprs_cons, nodeExpr, nodesContribute, ← isSome_blockExpr scope b]
    cases g.blockExpr scope b with
    | none => exact isEmpty_nodeExprs scope rest
    | some e => rfl
  | .condition c :: rest => by
    have hc : (g.conditionExpr scope c (g.operandExpr scope c)).isSome = g.contributes c :=
      isSome_conditionExpr
    rw [nodeExprs_cons, nodeExpr_condition, nodesContribute, ← hc]
    cases g.conditionExpr scope c (g.operandExpr scope c) with
    | none => exact isEmpty_nodeExprs scope rest
    | some e => rfl

end

/-- The children of a block are compiled to an expression just when some contributes. -/
theorem isSome_childrenExpr (scope : Scope) (b : Block) :
    (g.childrenExpr scope b).isSome = g.blockContributes b := by
  cases b
  rw [childrenExpr, isSome_combine, isEmpty_nodeExprs, blockContributes, Bool.not_not]

private theorem contributes_unsigned (id : String) (field : Option String) (op : Option Operator)
    (operand : Operand) (switch : Option Bool) :
    g.contributes ⟨id, field, op, operand.unsigned, switch⟩ =
      g.contributes ⟨id, field, op, operand, switch⟩ := by
  have hliteral : (operand.literal?.map Json.unsigned).getD .null =
      (operand.literal?.getD .null).unsigned := by
    cases operand.literal? <;> rfl
  simp only [contributes, Condition.fieldName?, Operand.literal?_unsigned, hliteral,
    Operand.suits_unsigned, ListVariable.suits_unsigned, Option.any_map, Operator.suits_unsigned]

mutual

private theorem blockContributes_unsigned : (b : Block) →
    g.blockContributes b.unsigned = g.blockContributes b
  | ⟨_, _, children, _, _⟩ => nodesContribute_unsigned children

private theorem nodesContribute_unsigned : (nodes : List Node) →
    g.nodesContribute (Node.unsignedAll nodes) = g.nodesContribute nodes
  | [] => rfl
  | .block b :: rest => by
    rw [Node.unsignedAll, Node.unsigned, nodesContribute, nodesContribute,
      blockContributes_unsigned b, nodesContribute_unsigned rest]
  | .condition ⟨_, _, _, operand, _⟩ :: rest => by
    rw [Node.unsignedAll, Node.unsigned, nodesContribute, nodesContribute,
      contributes_unsigned, nodesContribute_unsigned rest]

end

/-- Of two equal blocks both contribute or none. -/
theorem blockContributes_of_same {a b : Block} (ha : a.IsFinite) (h : a.same b = true) :
    g.blockContributes a = g.blockContributes b := by
  rw [← blockContributes_unsigned a, (Block.same_iff a b ha).mp h, blockContributes_unsigned]

end Generator
end FilterPipeline
