import FilterPipeline.Filter.Writing
import FilterPipeline.Proofs.LoadedFilters

/-!
# Saved filters

A filter is written with every part in full, and a loaded filter is read back from that as it was.
Only its literals need an argument, since they are written bare.
-/

namespace FilterPipeline

open Json (Layer uniqueMember? optionalMember)

variable {P : Json → Prop}

/-! ## Members that are found where they were written -/

namespace Json

variable {α : Type} {names : List String} {key : String} {rest : List (String × α)}

private theorem uniqueMember?_nil : uniqueMember? names ([] : List (String × α)) = some none := by
  rw [uniqueMember?, List.filter_nil]

private theorem uniqueMember?_cons_other {v : α} (h : key ∉ names) :
    uniqueMember? names ((key, v) :: rest) = uniqueMember? names rest := by
  rw [uniqueMember?, uniqueMember?, List.filter_cons_of_neg (by simpa using h)]

private theorem uniqueMember?_cons_found {v : α} (h : key ∈ names)
    (hrest : uniqueMember? names rest = some none) :
    uniqueMember? names ((key, v) :: rest) = some (some v) := by
  have hnone : rest.filter (names.contains ·.1) = [] := by
    rw [uniqueMember?] at hrest
    split at hrest
    · assumption
    · cases hrest
    · cases hrest
  rw [uniqueMember?, List.filter_cons_of_pos (by simpa using h), hnone]

variable {v : Option Json} {rest : Members}

private theorem uniqueMember?_optional_other (h : key ∉ names) :
    uniqueMember? names (optionalMember key v ++ rest) = uniqueMember? names rest := by
  cases v with
  | none => rfl
  | some v => exact uniqueMember?_cons_other h

private theorem uniqueMember?_optional_found (h : key ∈ names)
    (hrest : uniqueMember? names rest = some none) :
    uniqueMember? names (optionalMember key v ++ rest) = some v := by
  cases v with
  | none => exact hrest
  | some v => exact uniqueMember?_cons_found h hrest

private theorem filter_optionalMember {p : String × Json → Bool} (h : ∀ v, p (key, v) = true) :
    (optionalMember key v).filter p = optionalMember key v := by
  cases v with
  | none => rfl
  | some v => exact List.filter_cons_of_pos (h v)

end Json

open Json (uniqueMember?_nil uniqueMember?_cons_other uniqueMember?_cons_found
  uniqueMember?_optional_other uniqueMember?_optional_found)

private theorem Block.fields?_members (b : Block) :
    (Layer.members (b.members [])).fields? blockFields =
    some [some (.str b.id), some (.str b.logic.name), some (.arr (Node.toJsonAll b.children)),
      b.name.map .str, some (.bool b.mustHold)] := by
  obtain ⟨id, logic, children, name, mustHold⟩ := b
  simp [Block.members, Layer.fields?, blockFields, uniqueMember?_nil, uniqueMember?_cons_other,
    uniqueMember?_cons_found, uniqueMember?_optional_other, uniqueMember?_optional_found]

private theorem Condition.fields?_members (c : Condition) :
    (Layer.members (c.members [])).fields? conditionFields =
      some [some (.str c.id), c.field.map .str, c.operator.map Operator.toJson,
        some c.operand.toJson, c.switch.map .bool] := by
  obtain ⟨id, field, operator, operand, switch⟩ := c
  simp [Condition.members, Layer.fields?, conditionFields, uniqueMember?_nil,
    uniqueMember?_cons_other, uniqueMember?_cons_found, uniqueMember?_optional_other,
    uniqueMember?_optional_found]

private theorem ListCondition.fields?_toJson (d : ListCondition) :
    d.toJson.layer.fields? listConditionFields =
      some [some (.str "array"), some (.str d.field), d.operator.map Operator.toJson,
        d.subField.map .str, some d.operand.toJson, d.comparison.map Operator.toJson,
        d.comparisonValue, d.switch.map .bool] := by
  obtain ⟨field, operator, subField, operand, comparison, comparisonValue, switch⟩ := d
  simp [ListCondition.toJson, Json.layer, Layer.fields?, listConditionFields, uniqueMember?_nil,
    uniqueMember?_cons_other, uniqueMember?_cons_found, uniqueMember?_optional_other,
    uniqueMember?_optional_found]

/-! ## What is written is read back -/

private theorem Operator.parse?_key (op : Operator) : Operator.parse? op.key = some op := by
  rcases op with c | _ | _ | _ | _ | _ | _ | _ | _ | _ | _ | _ | _ | op
  case list => rcases op with q | _ | a <;> [cases q; skip; cases a] <;> rfl
  case compare => cases c <;> rfl
  all_goals rfl

namespace Reading

private theorem operator_toJson (op : Operator) : (ofJson op.toJson).operator = some op := by
  rw [operator, string?, value_ofJson]
  exact Operator.parse?_key op

private theorem string?_str (s : String) : (ofJson (.str s)).string? = some s := by
  rw [string?, value_ofJson]
  rfl

/-- A string that has been chosen is read back, and one that has not been is not there. -/
theorem fieldOr_nullableString? (s : Option String) :
    Json.fieldOr none nullableString? ((s.map Json.str).map ofJson) = some s := by
  cases s with
  | none => rfl
  | some s =>
    rw [Option.map_some, Option.map_some, Json.fieldOr, nullableString?, value_ofJson, string?_str]
    rfl

private theorem fieldOr_nullableBool? (b : Option Bool) :
    Json.fieldOr none nullableBool? ((b.map Json.bool).map ofJson) = some b := by
  cases b with
  | none => rfl
  | some b =>
    rw [Option.map_some, Option.map_some, Json.fieldOr, nullableBool?, value_ofJson]
    rfl

private theorem bind_operator (op : Option Operator) :
    ((op.map Operator.toJson).map ofJson).bind operator = op := by
  cases op with
  | none => rfl
  | some op => exact operator_toJson op

end Reading

private theorem Logic.ofJson?_name (isChild : Bool) (l : Logic) :
    Logic.ofJson? isChild (.str l.name) = some l := by
  cases l <;> rfl

private theorem Block.ofRecord?_members {b : Block} (isChild : Bool)
    (h : (Reading.ofJson (.arr (Node.toJsonAll b.children))).nodes = some b.children) :
    Block.ofRecord? isChild ((Layer.members (b.members [])).map Reading.ofJson) = some b := by
  rw [Block.ofRecord?, Layer.fields?_map, Block.fields?_members]
  simp only [Option.map_some, List.map_cons, List.map_nil, Option.bind_eq_bind, Option.bind_some,
    Reading.fieldOr_nullableString?, h]
  simp only [Json.fieldOr, Reading.string?_str, Reading.value_ofJson, Logic.ofJson?_name,
    Option.bind_some]
  cases b
  rfl

private theorem Condition.ofRecord?_members {c : Condition}
    (h : Operand.ofJson c.operand.toJson = c.operand) :
    Condition.ofRecord? ((Layer.members (c.members [])).map Reading.ofJson) = some c := by
  rw [Operand.ofJson] at h
  rw [Condition.ofRecord?, Layer.fields?_map, Condition.fields?_members]
  simp only [Option.map_some, List.map_cons, List.map_nil, Option.bind_eq_bind, Option.bind_some,
    Reading.fieldOr_nullableString?, Reading.fieldOr_nullableBool?,
    Reading.bind_operator, Option.elim_some, h]
  simp only [Json.fieldOr, Reading.string?_str, Option.bind_some]
  cases c
  rfl

private theorem ListCondition.ofRecord?_toJson {d : ListCondition}
    (h : Operand.ofJson d.operand.toJson = d.operand)
    (hvalue : ∀ v ∈ d.comparisonValue, v.canonical = v ∧ v.isNull = false) :
    ListCondition.ofRecord? (d.toJson.layer.map Reading.ofJson) = some d := by
  rw [Operand.ofJson] at h
  have hcomparison : ((d.comparisonValue.map Reading.ofJson).bind fun r ↦
      if r.value.isNull then none else some r.value.canonical) = d.comparisonValue := by
    cases hv : d.comparisonValue with
    | none => rfl
    | some v =>
      obtain ⟨hcanonical, hnull⟩ := hvalue v hv
      simp [Reading.value_ofJson, hcanonical, hnull]
  rw [ListCondition.ofRecord?, Layer.fields?_map, ListCondition.fields?_toJson]
  simp only [Option.map_some, List.map_cons, List.map_nil, Option.bind_eq_bind, Option.bind_some,
    Reading.fieldOr_nullableString?, Reading.fieldOr_nullableBool?,
    Reading.bind_operator, Option.elim_some, h, hcomparison, Reading.string?_str,
    Reading.value_ofJson]
  cases d
  rfl

/-! ## A loaded filter is read back as it was -/

private theorem Block.listCondition_ofJson_toJson (b : Block) :
    (Reading.ofJson b.toJson).listCondition = none := by
  have hfields : (Layer.members (b.members [])).fields? listConditionFields =
      some (List.replicate 8 none) := by
    obtain ⟨id, logic, children, name, mustHold⟩ := b
    simp [Block.members, Layer.fields?, listConditionFields, uniqueMember?_nil,
      uniqueMember?_cons_other, uniqueMember?_optional_other]
  rw [Block.toJson, Reading.ofJson_obj]
  have hnone :
      ListCondition.ofRecord? ((Layer.members (b.members [])).map Reading.ofJson) = none := by
    rw [ListCondition.ofRecord?, Layer.fields?_map, hfields]
    rfl
  exact hnone

private theorem Node.ofLayer?_members_map {members written : Members} {kind : String}
    (hkind : uniqueMember? ["category"] members = some (some (.str kind)))
    (hwritten : members.filter (·.1 != "category") = written) :
    Node.ofLayer? ((Layer.members members).map Reading.ofJson) =
      (NodeKind.ofJson? (.str kind)).bind
        (Node.ofRecord? · ((Layer.members written).map Reading.ofJson)) := by
  have hfilter : (members.map fun m ↦ (m.1, Reading.ofJson m.2)).filter (·.1 != "category") =
      (members.filter (·.1 != "category")).map fun m ↦ (m.1, Reading.ofJson m.2) := List.filter_map
  rw [Layer.map, Node.ofLayer?_members, Json.uniqueMember?_map, hkind, hfilter, hwritten]
  simp only [Option.map_some, Option.join_some, Option.bind_some, Reading.value_ofJson]
  rfl

private theorem Block.filter_members (b : Block) :
    (b.members [("category", .str "block")]).filter (·.1 != "category") = b.members [] := by
  obtain ⟨id, logic, children, name, mustHold⟩ := b
  simp [Block.members, Json.filter_optionalMember]

private theorem Block.category_members (b : Block) :
    uniqueMember? ["category"] (b.members [("category", .str "block")]) =
      some (some (.str "block")) := by
  obtain ⟨id, logic, children, name, mustHold⟩ := b
  simp [Block.members, uniqueMember?_nil, uniqueMember?_cons_other, uniqueMember?_cons_found,
    uniqueMember?_optional_other]

private theorem Condition.filter_members (c : Condition) :
    (c.members [("category", .str "condition")]).filter (·.1 != "category") = c.members [] := by
  obtain ⟨id, field, operator, operand, switch⟩ := c
  simp [Condition.members, Json.filter_optionalMember]

private theorem Condition.category_members (c : Condition) :
    uniqueMember? ["category"] (c.members [("category", .str "condition")]) =
      some (some (.str "condition")) := by
  obtain ⟨id, field, operator, operand, switch⟩ := c
  simp [Condition.members, uniqueMember?_nil, uniqueMember?_cons_other, uniqueMember?_cons_found,
    uniqueMember?_optional_other]

mutual

private theorem Block.block_ofJson_toJson : (b : Block) → b.IsLoaded P →
    (Reading.ofJson b.toJson).block = some b
  | ⟨_, _, children, _, _⟩, h => by
    rw [Block.toJson, Reading.ofJson_obj]
    refine Block.ofRecord?_members false ?_
    rw [Reading.ofJson_arr]
    exact Node.nodes_ofJson_toJsonAll children h

private theorem Node.nodes_ofJson_toJsonAll : (nodes : List Node) → Node.AllLoaded P nodes →
    ((Node.toJsonAll nodes).map Reading.ofJson).mapM Reading.node = some nodes
  | [], _ => rfl
  | n :: rest, h => by
    rw [Node.toJsonAll, List.map_cons, List.mapM_cons, Node.node_ofJson_toJson n h.1,
      Node.nodes_ofJson_toJsonAll rest h.2]
    rfl

private theorem Node.node_ofJson_toJson :
    (n : Node) → n.IsLoaded P → (Reading.ofJson n.toJson).node = some n
  | .block ⟨id, logic, children, name, mustHold⟩, h => by
    rw [Node.toJson, Reading.ofJson_obj]
    refine (Node.ofLayer?_members_map (Block.category_members _) (Block.filter_members _)).trans ?_
    rw [NodeKind.ofJson?, Option.bind_some, Node.ofRecord?, Block.ofRecord?_members]
    · rfl
    · rw [Reading.ofJson_arr]
      exact Node.nodes_ofJson_toJsonAll children h
  | .condition ⟨id, field, operator, operand, switch⟩, h => by
    rw [Node.toJson, Reading.ofJson_obj]
    refine (Node.ofLayer?_members_map (Condition.category_members _)
      (Condition.filter_members _)).trans ?_
    rw [NodeKind.ofJson?, Option.bind_some, Node.ofRecord?, Condition.ofRecord?_members]
    · rfl
    · exact Operand.ofJson_toJson operand h

private theorem Operand.ofJson_toJson : (o : Operand) → o.IsLoaded P → Operand.ofJson o.toJson = o
  | .literal v, h => h.1
  | .nested b, h => by
    have hblock := Block.block_ofJson_toJson b h
    have hlist := Block.listCondition_ofJson_toJson b
    rw [Operand.toJson, Operand.ofJson, Reading.operand]
    rw [Block.toJson] at hblock hlist
    rw [hblock, hlist]
  | .list d, h => by
    rw [Operand.toJson, Operand.ofJson, Reading.operand,
      ListCondition.listCondition_ofJson_toJson d h]

private theorem ListCondition.listCondition_ofJson_toJson : (d : ListCondition) → d.IsLoaded P →
    (Reading.ofJson d.toJson).listCondition = some d
  | ⟨field, operator, subField, operand, comparison, comparisonValue, switch⟩, h => by
    have hread := ListCondition.ofRecord?_toJson
      (d := ⟨field, operator, subField, operand, comparison, comparisonValue, switch⟩)
      (Operand.ofJson_toJson operand h.1) fun v hv ↦ (h.2 v hv).1
    rw [ListCondition.toJson] at hread ⊢
    rw [Reading.ofJson_obj]
    exact hread

end

/-- Root blocks as a value. -/
def Block.rootsToJson (bs : List Block) : Json := .arr (bs.map Block.toJson)

/-- Root blocks that are loaded are read back as they were. -/
theorem Block.rootsOfJson?_rootsToJson {bs : List Block} (h : ∀ b ∈ bs, b.IsLoaded P) :
    Block.rootsOfJson? (Block.rootsToJson bs) = some bs := by
  have hread : (bs.map Block.toJson).mapM (fun v ↦ (Reading.ofJson v).block) = some bs := by
    induction bs with
    | nil => rfl
    | cons b rest ih =>
      obtain ⟨hb, hrest⟩ := List.forall_mem_cons.mp h
      rw [List.map_cons, List.mapM_cons, Block.block_ofJson_toJson b hb, ih hrest]
      rfl
  rw [rootsOfJson?, rootsToJson, Json.items?, Option.bind_some, hread]
  rfl

/-! ## The numbers of a written filter -/

private theorem allNumbers_optionalMember {key : String} {v : Option Json}
    (h : ∀ w ∈ v, w.AllNumbers P) :
    ∀ m ∈ optionalMember key v, m.2.AllNumbers P := by
  cases v with
  | none => exact List.forall_mem_nil _
  | some w => exact List.forall_mem_singleton.mpr (h w rfl)

/-- A member whose value is a string or a truth value. -/
theorem allNumbers_optional_flat {α : Type} {write : α → Json}
    (h : ∀ x, (write x).isFlat = true ∧ (write x).isNumber = false) {key : String}
    {part : Option α} : ∀ m ∈ optionalMember key (part.map write), m.2.AllNumbers P := by
  refine allNumbers_optionalMember fun w hw ↦ ?_
  obtain ⟨x, -, rfl⟩ := Option.map_eq_some_iff.mp hw
  exact Json.allNumbers_flat (h x).1 (h x).2

mutual

private theorem Block.allNumbers_members (kind : Members) (hkind : ∀ m ∈ kind, m.2.AllNumbers P) :
    (b : Block) → b.IsLoaded P → ∀ m ∈ b.members kind, m.2.AllNumbers P
  | ⟨id, logic, children, name, mustHold⟩, h => by
    have hchildren := Json.allNumbers_arr_iff.mpr (Node.allNumbers_toJsonAll children h)
    simp only [Block.members, List.forall_mem_append, List.forall_mem_cons]
    exact ⟨⟨⟨hkind, hchildren, List.forall_mem_nil _⟩, allNumbers_optional_flat fun _ ↦ ⟨rfl, rfl⟩⟩,
      Json.allNumbers_flat rfl rfl, Json.allNumbers_flat rfl rfl, Json.allNumbers_flat rfl rfl,
      List.forall_mem_nil _⟩

private theorem Node.allNumbers_toJsonAll : (nodes : List Node) → Node.AllLoaded P nodes →
    ∀ v ∈ Node.toJsonAll nodes, v.AllNumbers P
  | [], _ => List.forall_mem_nil _
  | n :: rest, h =>
    List.forall_mem_cons.mpr ⟨Node.allNumbers_toJson n h.1, Node.allNumbers_toJsonAll rest h.2⟩

private theorem Node.allNumbers_toJson : (n : Node) → n.IsLoaded P → n.toJson.AllNumbers P
  | .block b, h => Json.allNumbers_obj_iff.mpr
    (Block.allNumbers_members _ (List.forall_mem_singleton.mpr (Json.allNumbers_flat rfl rfl)) b h)
  | .condition ⟨id, field, operator, operand, switch⟩, h => by
    have hoperand := Operand.allNumbers_toJson operand h
    rw [Node.toJson, Json.allNumbers_obj_iff]
    simp only [Condition.members, List.forall_mem_append, List.forall_mem_cons]
    exact ⟨⟨⟨⟨⟨allNumbers_optional_flat fun _ ↦ ⟨rfl, rfl⟩, Json.allNumbers_flat rfl rfl,
      List.forall_mem_nil _⟩, allNumbers_optional_flat fun _ ↦ ⟨rfl, rfl⟩⟩,
      Json.allNumbers_flat rfl rfl, List.forall_mem_nil _⟩,
      allNumbers_optional_flat fun _ ↦ ⟨rfl, rfl⟩⟩, hoperand, List.forall_mem_nil _⟩

private theorem Operand.allNumbers_toJson : (o : Operand) → o.IsLoaded P → o.toJson.AllNumbers P
  | .literal _, h => h.2
  | .nested b, h =>
    Json.allNumbers_obj_iff.mpr (Block.allNumbers_members [] (List.forall_mem_nil _) b h)
  | .list d, h => ListCondition.allNumbers_toJson d h

private theorem ListCondition.allNumbers_toJson : (d : ListCondition) → d.IsLoaded P →
    d.toJson.AllNumbers P
  | ⟨field, operator, subField, operand, comparison, comparisonValue, switch⟩, h => by
    have hoperand := Operand.allNumbers_toJson operand h.1
    rw [ListCondition.toJson, Json.allNumbers_obj_iff]
    simp only [List.forall_mem_append, List.forall_mem_cons]
    exact ⟨⟨⟨⟨⟨⟨allNumbers_optional_flat fun _ ↦ ⟨rfl, rfl⟩,
      allNumbers_optional_flat fun _ ↦ ⟨rfl, rfl⟩⟩,
      allNumbers_optionalMember fun w hw ↦ (h.2 w hw).2⟩, Json.allNumbers_flat rfl rfl,
      List.forall_mem_nil _⟩, allNumbers_optional_flat fun _ ↦ ⟨rfl, rfl⟩⟩,
      allNumbers_optional_flat fun _ ↦ ⟨rfl, rfl⟩⟩, Json.allNumbers_flat rfl rfl, hoperand,
      List.forall_mem_nil _⟩

end

/-- A written filter has no numbers but those of its literals. -/
theorem Block.allNumbers_rootsToJson {bs : List Block} (h : ∀ b ∈ bs, b.IsLoaded P) :
    (Block.rootsToJson bs).AllNumbers P :=
  Json.allNumbers_arr_iff.mpr (List.forall_mem_map.mpr fun b hb ↦ Json.allNumbers_obj_iff.mpr
    (Block.allNumbers_members [] (List.forall_mem_nil _) b (h b hb)))

end FilterPipeline
