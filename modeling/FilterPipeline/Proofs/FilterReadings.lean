import FilterPipeline.Filter.Reading
import FilterPipeline.Proofs.CanonicalValues

/-!
# What a value means in a filter

A record is read by the names of its fields, so the order of its members does not matter, and a
literal is kept in canonical form. A canonical value therefore means what the value means, if no
object in it has a key twice.
-/

namespace FilterPipeline

/-- Each of the results of a whole list is the result of one of its items. -/
theorem exists_of_mem_mapM {α β : Type} {f : α → Option β} {l : List α} {ys : List β} {y : β}
    (h : l.mapM f = some ys) (hy : y ∈ ys) : ∃ x ∈ l, f x = some y := by
  induction l generalizing ys with
  | nil =>
    cases h
    cases hy
  | cons x rest ih =>
    simp only [List.mapM_cons, Option.bind_eq_bind, Option.bind_eq_some_iff] at h
    obtain ⟨z, hz, others, hothers, heq⟩ := h
    cases heq
    rcases List.mem_cons.mp hy with rfl | hy
    · exact ⟨x, List.mem_cons_self, hz⟩
    · obtain ⟨x', hx', hfx⟩ := ih hothers hy
      exact ⟨x', List.mem_cons_of_mem _ hx', hfx⟩

namespace Json

variable {α β : Type}

/-- The parts of a layer. -/
def Layer.parts : Layer α → List α
  | .scalar _ => []
  | .items parts => parts
  | .members parts => parts.map (·.2)

/-- A layer whose parts are taken further. -/
def Layer.map (f : α → β) : Layer α → Layer β
  | .scalar v => .scalar v
  | .items parts => .items (parts.map f)
  | .members parts => .members (parts.map fun m ↦ (m.1, f m.2))

variable {names : List String} {parts parts' : List (String × α)} {f : α → β}

/-- The member that bears a name is found in any order. -/
theorem uniqueMember?_perm (h : parts.Perm parts') :
    uniqueMember? names parts = uniqueMember? names parts' := by
  have hfilter := h.filter (names.contains ·.1)
  rw [uniqueMember?, uniqueMember?]
  generalize parts.filter (names.contains ·.1) = found at hfilter ⊢
  generalize parts'.filter (names.contains ·.1) = found' at hfilter ⊢
  have hlength := hfilter.length_eq
  match found, found', hlength, hfilter with
  | [], [], _, _ => rfl
  | [m], [n], _, hfilter => rw [List.singleton_perm_singleton.mp hfilter]
  | _ :: _ :: _, _ :: _ :: _, _, _ => rfl

/-- The member that bears a name is found before its part is taken further. -/
theorem uniqueMember?_map : uniqueMember? names (parts.map fun m ↦ (m.1, f m.2)) =
    (uniqueMember? names parts).map (Option.map f) := by
  have hfilter : (parts.map fun m ↦ (m.1, f m.2)).filter (names.contains ·.1) =
      (parts.filter (names.contains ·.1)).map fun m ↦ (m.1, f m.2) := List.filter_map
  rw [uniqueMember?, uniqueMember?, hfilter]
  generalize parts.filter (names.contains ·.1) = found
  match found with
  | [] => rfl
  | [_] => rfl
  | _ :: _ :: _ => rfl

private theorem mem_of_uniqueMember? {x : α} (h : uniqueMember? names parts = some (some x)) :
    ∃ key, (key, x) ∈ parts := by
  rw [uniqueMember?] at h
  split at h
  · cases h
  · next heq =>
    cases h
    exact ⟨_, List.mem_of_mem_filter (heq ▸ List.mem_cons_self)⟩
  · cases h

/-- The fields of an object are found in any order. -/
theorem Layer.fields?_perm (h : parts.Perm parts') (names : List (List String)) :
    (Layer.members parts).fields? names = (Layer.members parts').fields? names := by
  rw [Layer.fields?, Layer.fields?]
  exact congrArg (names.mapM ·) (funext fun _ ↦ uniqueMember?_perm h)

/-- The fields of a record are found before the parts are taken further. -/
theorem Layer.fields?_map (record : Layer α) (names : List (List String)) :
    (record.map f).fields? names = (record.fields? names).map (List.map (Option.map f)) := by
  cases record with
  | scalar v => rfl
  | items parts =>
    rw [Layer.map, Layer.fields?, Layer.fields?, List.length_map]
    split
    · simp
    · rfl
  | members parts =>
    rw [Layer.map, Layer.fields?, Layer.fields?]
    induction names with
    | nil => rfl
    | cons field rest ih =>
      rw [List.mapM_cons, List.mapM_cons, ih, uniqueMember?_map]
      cases uniqueMember? field parts with
      | none => rfl
      | some part => cases rest.mapM (uniqueMember? · parts) <;> rfl

/-- There are as many fields as names. -/
theorem Layer.length_fields? {record : Layer α} {names : List (List String)}
    {fields : List (Option α)} (h : record.fields? names = some fields) :
    fields.length = names.length := by
  cases record with
  | scalar v => cases h
  | items parts =>
    rw [Layer.fields?] at h
    split at h
    · cases h
      rw [List.length_append, List.length_map, List.length_replicate]
      omega
    · cases h
  | members parts =>
    rw [Layer.fields?] at h
    induction names generalizing fields with
    | nil =>
      cases h
      rfl
    | cons field rest ih =>
      simp only [List.mapM_cons, Option.bind_eq_bind, Option.bind_eq_some_iff] at h
      obtain ⟨part, -, others, hothers, heq⟩ := h
      cases heq
      exact congrArg Nat.succ (ih hothers)

/-- A field is a part of its record. -/
theorem Layer.mem_parts_of_fields? {record : Layer α} {names : List (List String)}
    {fields : List (Option α)} (h : record.fields? names = some fields) {x : α}
    (hx : some x ∈ fields) : x ∈ record.parts := by
  cases record with
  | scalar v => cases h
  | items parts =>
    rw [Layer.fields?] at h
    split at h
    · cases h
      rcases List.mem_append.mp hx with hx | hx
      · obtain ⟨y, hy, heq⟩ := List.mem_map.mp hx
        exact Option.some.inj heq ▸ hy
      · cases List.eq_of_mem_replicate hx
    · cases h
  | members parts =>
    obtain ⟨_, -, hfound⟩ := exists_of_mem_mapM h hx
    obtain ⟨key, hmem⟩ := mem_of_uniqueMember? hfound
    exact List.mem_map.mpr ⟨_, hmem, rfl⟩

end Json

open Json (Layer uniqueMember? fieldOr)

section Canonical

variable {v : Json}

/-- A value is null when its canonical form is. -/
theorem canonical_isNull : v.canonical.isNull = v.isNull := by
  cases v <;> rfl

private theorem canonical_string? : v.canonical.string? = v.string? := by
  cases v <;> rfl

private theorem canonical_bool? : v.canonical.bool? = v.bool? := by
  cases v <;> rfl

private theorem NodeKind.ofJson?_canonical : NodeKind.ofJson? v.canonical = NodeKind.ofJson? v := by
  cases v <;> rfl

/-- An object with one member or none is canonical in its own layer; several members with distinct
keys stay several. -/
theorem Json.canonical_obj_cases {members : Members} (h : (Json.obj members).distinctKeys = true) :
    (members = [] ∧ (Json.obj members).canonical = .obj []) ∨
      (∃ key v, members = [(key, v)] ∧ (Json.obj members).canonical = .obj [(key, v.canonical)]) ∨
      (∃ m n rest, members = m :: n :: rest) ∧
        ∃ m n rest, (Json.obj members).canonical = .obj (m :: n :: rest) := by
  match members with
  | [] => exact Or.inl ⟨rfl, rfl⟩
  | [(key, v)] => exact Or.inr (Or.inl ⟨key, v, rfl, rfl⟩)
  | m :: n :: rest =>
    refine Or.inr (Or.inr ⟨⟨m, n, rest, rfl⟩, ?_⟩)
    have hnodup := (Json.distinctKeys_obj_iff.mp h).1
    have hperm := Members.ofList_perm
      ((m :: n :: rest).map fun m ↦ (m.1, m.2.canonical)) (by rwa [List.map_map])
    rw [Json.canonical_obj]
    generalize Members.ofList ((m :: n :: rest).map fun m ↦ (m.1, m.2.canonical)) = sorted
      at hperm ⊢
    match sorted with
    | m' :: n' :: rest' => exact ⟨m', n', rest', rfl⟩
    | [] | [_] => exact absurd hperm.length_eq (by simp)

private theorem Logic.ofJson?_several (isChild : Bool) (m n : String × Json) (rest : Members) :
    Logic.ofJson? isChild (.obj (m :: n :: rest)) = none := by
  obtain ⟨key, v⟩ := m
  cases v with
  | obj members => cases members <;> rfl
  | _ => rfl

private theorem isArrayTag_several (m n : String × Json) (rest : Members) :
    isArrayTag (.obj (m :: n :: rest)) = false := by
  obtain ⟨key, v⟩ := m
  cases v <;> rfl

private theorem Logic.ofJson?_canonical {isChild : Bool} (h : v.distinctKeys = true) :
    Logic.ofJson? isChild v.canonical = Logic.ofJson? isChild v := by
  cases v with
  | obj members =>
    rcases Json.canonical_obj_cases h with ⟨rfl, heq⟩ | ⟨key, v, rfl, heq⟩ |
      ⟨⟨m, n, rest, rfl⟩, m', n', rest', heq⟩
    · rw [heq]
    · rw [heq]
      cases v with
      | obj inner =>
        rcases Json.canonical_obj_cases ((Json.distinctKeys_obj_iff.mp h).2 _ List.mem_cons_self)
          with ⟨rfl, heq⟩ | ⟨key, v, rfl, heq⟩ | ⟨⟨m, n, rest, rfl⟩, m', n', rest', heq⟩ <;>
          rw [heq] <;> rfl
      | _ => rfl
    · rw [heq, Logic.ofJson?_several, Logic.ofJson?_several]
  | _ => rfl

private theorem isArrayTag_canonical (h : v.distinctKeys = true) :
    isArrayTag v.canonical = isArrayTag v := by
  cases v with
  | obj members =>
    rcases Json.canonical_obj_cases h with ⟨rfl, heq⟩ | ⟨key, v, rfl, heq⟩ |
      ⟨⟨m, n, rest, rfl⟩, m', n', rest', heq⟩
    · rw [heq]
    · rw [heq]
      cases v <;> rfl
    · rw [heq, isArrayTag_several, isArrayTag_several]
  | _ => rfl

end Canonical

namespace Reading

/-- The reading of a value in canonical form. -/
def canonical (r : Reading) : Reading := { r with value := r.value.canonical }

variable {r : Reading} {record : Layer Reading}

private theorem string?_canonical : r.canonical.string? = r.string? := canonical_string?

private theorem nullableString?_canonical : r.canonical.nullableString? = r.nullableString? := by
  rw [nullableString?, nullableString?, string?_canonical, canonical]
  simp only [canonical_isNull]

private theorem nullableBool?_canonical : r.canonical.nullableBool? = r.nullableBool? := by
  rw [nullableBool?, nullableBool?, canonical]
  simp only [canonical_isNull, canonical_bool?]

private theorem operator_canonical : r.canonical.operator = r.operator := by
  rw [operator, operator, string?_canonical]

/-- A value and its canonical form are read as the same operand. -/
theorem operand_canonical : r.canonical.operand = r.operand := by
  rw [operand, operand, canonical]
  simp only [Json.canonical_canonical]

end Reading

/-- A field that is read alike in canonical form. -/
theorem fieldOr_canonical {β : Type} {default : β} {read? : Reading → Option β}
    (part : Option Reading) (h : ∀ r, part = some r → read? r.canonical = read? r) :
    fieldOr default read? (part.map Reading.canonical) = fieldOr default read? part := by
  cases part with
  | none => rfl
  | some r => exact h r rfl

private theorem Block.ofRecord?_canonical {isChild : Bool} {record : Layer Reading}
    (h : ∀ r ∈ record.parts, r.value.distinctKeys = true) :
    Block.ofRecord? isChild (record.map Reading.canonical) = Block.ofRecord? isChild record := by
  rw [Block.ofRecord?, Block.ofRecord?, Layer.fields?_map]
  cases hfields : record.fields? blockFields with
  | none => rfl
  | some fields =>
    match fields, (Layer.length_fields? hfields : fields.length = 5) with
    | [id, logic, children, name, mustHold], _ =>
      simp only [Option.map_some, List.map_cons, List.map_nil, Option.bind_eq_bind,
        Option.bind_some]
      rw [fieldOr_canonical id fun r _ ↦ Reading.string?_canonical,
        fieldOr_canonical name fun r _ ↦ Reading.nullableString?_canonical,
        fieldOr_canonical logic fun r hr ↦ Logic.ofJson?_canonical
          (h r (Layer.mem_parts_of_fields? hfields (by simp [hr]))),
        fieldOr_canonical mustHold fun r _ ↦ canonical_bool?]
      cases children <;> rfl

private theorem Condition.ofRecord?_canonical (record : Layer Reading) :
    Condition.ofRecord? (record.map Reading.canonical) = Condition.ofRecord? record := by
  rw [Condition.ofRecord?, Condition.ofRecord?, Layer.fields?_map]
  cases hfields : record.fields? conditionFields with
  | none => rfl
  | some fields =>
    match fields, (Layer.length_fields? hfields : fields.length = 5) with
    | [id, field, operator, operand, switch], _ =>
      simp only [Option.map_some, List.map_cons, List.map_nil, Option.bind_eq_bind,
        Option.bind_some]
      rw [fieldOr_canonical id fun r _ ↦ Reading.string?_canonical,
        fieldOr_canonical field fun r _ ↦ Reading.nullableString?_canonical,
        fieldOr_canonical switch fun r _ ↦ Reading.nullableBool?_canonical]
      cases operator <;> cases operand <;>
        simp [Reading.operator_canonical, Reading.operand_canonical]

private theorem ListCondition.ofRecord?_canonical {record : Layer Reading}
    (h : ∀ r ∈ record.parts, r.value.distinctKeys = true) :
    ListCondition.ofRecord? (record.map Reading.canonical) = ListCondition.ofRecord? record := by
  rw [ListCondition.ofRecord?, ListCondition.ofRecord?, Layer.fields?_map]
  cases hfields : record.fields? listConditionFields with
  | none => rfl
  | some fields =>
    match fields, (Layer.length_fields? hfields : fields.length = 8) with
    | [tag, field, operator, subField, operand, comparison, comparisonValue, switch], _ =>
      simp only [Option.map_some, List.map_cons, List.map_nil, Option.bind_eq_bind,
        Option.bind_some]
      rw [fieldOr_canonical subField fun r _ ↦ Reading.nullableString?_canonical,
        fieldOr_canonical switch fun r _ ↦ Reading.nullableBool?_canonical]
      have hvalue : ((comparisonValue.map Reading.canonical).bind fun r ↦
          if r.value.isNull then none else some r.value.canonical) =
          comparisonValue.bind fun r ↦
            if r.value.isNull then none else some r.value.canonical := by
        cases comparisonValue with
        | none => rfl
        | some r => simp [Reading.canonical, canonical_isNull, Json.canonical_canonical]
      rw [hvalue]
      cases tag with
      | none => rfl
      | some r =>
        have htag : isArrayTag r.canonical.value = isArrayTag r.value :=
          isArrayTag_canonical (h r (Layer.mem_parts_of_fields? hfields List.mem_cons_self))
        simp only [Option.map_some, Option.bind_some, htag]
        cases field <;> cases operator <;> cases operand <;> cases comparison <;>
          simp [Reading.operator_canonical, Reading.operand_canonical, Reading.string?_canonical]

/-- The node of a kind that a record means. -/
def Node.ofRecord? (kind : NodeKind) (record : Layer Reading) : Option Node :=
  match kind with
  | .block => (Block.ofRecord? true record).map .block
  | .condition => (Condition.ofRecord? record).map .condition

/-- In a list of parts the first tells the kind of the node and the others are its record. -/
theorem Node.ofLayer?_items (kind : Reading) (parts : List Reading) :
    Node.ofLayer? (.items (kind :: parts)) =
      (NodeKind.ofJson? kind.value).bind (Node.ofRecord? · (.items parts)) := by
  simp only [Node.ofLayer?, Option.bind_eq_bind, Option.bind_some]
  refine congrArg _ (funext fun k ↦ ?_)
  cases k <;> rfl

/-- Among named parts the category tells the kind of the node and the others are its record. -/
theorem Node.ofLayer?_members (parts : List (String × Reading)) :
    Node.ofLayer? (.members parts) =
      (uniqueMember? ["category"] parts).join.bind fun kind ↦ (NodeKind.ofJson? kind.value).bind
        (Node.ofRecord? · (.members (parts.filter (·.1 != "category")))) := by
  simp only [Node.ofLayer?, Option.bind_eq_bind]
  rcases uniqueMember? ["category"] parts with _ | _ | kind
  · rfl
  · rfl
  · simp only [Option.bind_some, Option.join_some]
    refine congrArg _ (funext fun k ↦ ?_)
    cases k <;> rfl

private theorem Node.ofRecord?_canonical (kind : NodeKind) (record : Layer Reading)
    (h : ∀ r ∈ record.parts, r.value.distinctKeys = true) :
    Node.ofRecord? kind (record.map Reading.canonical) = Node.ofRecord? kind record := by
  cases kind with
  | block => rw [Node.ofRecord?, Node.ofRecord?, Block.ofRecord?_canonical h]
  | condition => rw [Node.ofRecord?, Node.ofRecord?, Condition.ofRecord?_canonical]

private theorem Node.ofLayer?_canonical {record : Layer Reading}
    (h : ∀ r ∈ record.parts, r.value.distinctKeys = true) :
    Node.ofLayer? (record.map Reading.canonical) = Node.ofLayer? record := by
  cases record with
  | scalar v => rfl
  | items parts =>
    cases parts with
    | nil => rfl
    | cons kind rest =>
      rw [Layer.map, List.map_cons, Node.ofLayer?_items, Node.ofLayer?_items, Reading.canonical,
        NodeKind.ofJson?_canonical]
      refine congrArg _ (funext fun k ↦ ?_)
      exact Node.ofRecord?_canonical k (.items rest)
        fun r hr ↦ h r (List.mem_cons_of_mem _ hr)
  | members parts =>
    have hfilter : (parts.map fun m ↦ (m.1, m.2.canonical)).filter (·.1 != "category") =
        (parts.filter (·.1 != "category")).map fun m ↦ (m.1, m.2.canonical) := List.filter_map
    have hrest (k : NodeKind) := Node.ofRecord?_canonical k
      (.members (parts.filter (·.1 != "category"))) fun r hr ↦ by
        obtain ⟨m, hm, rfl⟩ := List.mem_map.mp hr
        exact h _ (List.mem_map_of_mem (List.mem_of_mem_filter hm))
    rw [Layer.map, Node.ofLayer?_members, Node.ofLayer?_members, Json.uniqueMember?_map, hfilter]
    rcases uniqueMember? ["category"] parts with _ | _ | kind
    · rfl
    · rfl
    · simp only [Option.map_some, Option.join_some, Option.bind_some, Reading.canonical,
        NodeKind.ofJson?_canonical]
      exact congrArg _ (funext hrest)

private theorem Reading.ofLayer_canonical (record : Layer Reading)
    (h : ∀ r ∈ record.parts, r.value.distinctKeys = true) :
    Reading.ofLayer (record.map Reading.canonical) =
      { Reading.ofLayer record with
        value := (Reading.ofLayer (record.map Reading.canonical)).value } := by
  have hnodes : ((record.map Reading.canonical).items?.bind fun parts ↦
      parts.mapM Reading.node) = record.items?.bind fun parts ↦ parts.mapM Reading.node := by
    cases record with
    | items parts =>
      simp only [Layer.map, Layer.items?, Option.bind_some, List.mapM_map]
      rfl
    | _ => rfl
  simp only [Reading.ofLayer, Block.ofRecord?_canonical h, ListCondition.ofRecord?_canonical h,
    Node.ofLayer?_canonical h, hnodes]

private theorem Reading.ofLayer_perm {parts parts' : List (String × Reading)}
    (h : parts.Perm parts') :
    Reading.ofLayer (.members parts') =
      { Reading.ofLayer (.members parts) with
        value := (Reading.ofLayer (.members parts')).value } := by
  have hnode : Node.ofLayer? (.members parts') = Node.ofLayer? (.members parts) := by
    rw [Node.ofLayer?_members, Node.ofLayer?_members, Json.uniqueMember?_perm h]
    refine congrArg _ (funext fun kind ↦ congrArg _ (funext fun k ↦ ?_))
    cases k <;>
      simp only [Node.ofRecord?, Block.ofRecord?, Condition.ofRecord?,
        Layer.fields?_perm (h.filter _)]
  simp only [Reading.ofLayer, Block.ofRecord?, ListCondition.ofRecord?, Layer.fields?_perm h, hnode]
  rfl

namespace Reading

/-- A value that is neither a list nor an object is read as its scalar. -/
theorem ofJson_flat {v : Json} (h : v.isFlat = true) : ofJson v = ofLayer (.scalar v) :=
  Json.fold_flat h

/-- A list is read by reading its items. -/
theorem ofJson_arr (items : List Json) :
    ofJson (.arr items) = ofLayer (.items (items.map ofJson)) := Json.fold_arr items

/-- An object is read by reading its members. -/
theorem ofJson_obj (members : Members) :
    ofJson (.obj members) = ofLayer (.members (members.map fun m ↦ (m.1, ofJson m.2))) :=
  Json.fold_obj members

/-- A reading tells what it is of. -/
theorem value_ofJson (v : Json) : (ofJson v).value = v := by
  induction v using Json.induction with
  | scalar v h => rw [ofJson_flat h, ofLayer]
  | arr items ih =>
    have hvalues : items.map (value ∘ ofJson) = items.map id := List.map_congr_left ih
    rw [ofJson_arr, ofLayer, List.map_map, hvalues, List.map_id]
  | obj members ih =>
    have hvalues : members.map (fun m ↦ (m.1, (ofJson m.2).value)) = members.map id :=
      List.map_congr_left fun m hm ↦ Prod.ext rfl (ih m hm)
    rw [ofJson_obj, ofLayer]
    simp only [List.map_map, Function.comp_def]
    rw [hvalues, List.map_id]

private theorem ext_value {r r' : Reading} (h : r' = { r with value := r'.value }) {v : Json}
    (hv : r'.value = v) : r' = { r with value := v } := by
  rw [h, hv]

/-- A value in canonical form means what the value means. -/
theorem ofJson_canonical {v : Json} (h : v.distinctKeys = true) :
    ofJson v.canonical = (ofJson v).canonical := by
  rw [canonical, value_ofJson]
  refine ext_value ?_ (value_ofJson _)
  induction v using Json.induction with
  | scalar v hv =>
    rw [Json.canonical_flat hv]
  | arr items ih =>
    have hitems := Json.distinctKeys_arr_iff.mp h
    have hparts : items.map (ofJson ∘ Json.canonical) = (items.map ofJson).map canonical := by
      rw [List.map_map]
      refine List.map_congr_left fun v hv ↦ ?_
      rw [Function.comp_apply, Function.comp_apply, canonical, value_ofJson]
      exact ext_value (ih v hv (hitems v hv)) (value_ofJson _)
    have hlayer := ofLayer_canonical (.items (items.map ofJson)) fun r hr ↦ by
      obtain ⟨v, hv, rfl⟩ := List.mem_map.mp hr
      rw [value_ofJson]
      exact hitems v hv
    rw [Json.canonical_arr, ofJson_arr, ofJson_arr, List.map_map, hparts]
    exact hlayer
  | obj members ih =>
    obtain ⟨hnodup, hmembers⟩ := Json.distinctKeys_obj_iff.mp h
    have hparts : members.map (fun m ↦ (m.1, ofJson m.2.canonical)) =
        (members.map fun m ↦ (m.1, ofJson m.2)).map fun m ↦ (m.1, m.2.canonical) := by
      rw [List.map_map]
      refine List.map_congr_left fun m hm ↦ Prod.ext rfl ?_
      rw [Function.comp_apply, canonical, value_ofJson]
      exact ext_value (ih m hm (hmembers m hm)) (value_ofJson _)
    have hlayer := ofLayer_canonical (.members (members.map fun m ↦ (m.1, ofJson m.2)))
      fun r hr ↦ by
        obtain ⟨m, hm, rfl⟩ := List.mem_map.mp hr
        obtain ⟨n, hn, rfl⟩ := List.mem_map.mp hm
        rw [value_ofJson]
        exact hmembers n hn
    have hperm := Members.ofList_perm (members.map fun m ↦ (m.1, m.2.canonical))
      (by rwa [List.map_map])
    have horder := ofLayer_perm (hperm.symm.map fun m ↦ (m.1, ofJson m.2))
    have hsame : (members.map fun m ↦ (m.1, m.2.canonical)).map (fun m ↦ (m.1, ofJson m.2)) =
        members.map fun m ↦ (m.1, ofJson m.2.canonical) := List.map_map
    rw [hsame, hparts] at horder
    rw [Json.canonical_obj, ofJson_obj, ofJson_obj]
    refine horder.trans ?_
    simp only [Layer.map] at hlayer
    rw [hlayer]

end Reading

end FilterPipeline
