import FilterPipeline.Proofs.FilterReadings

/-!
# Loaded filters

What reading leaves in a filter. A literal that has been read looks neither like a block nor like a
list condition, also in canonical form, since it became a literal only after it had been neither of
the two.
-/

namespace FilterPipeline

open Json (Layer)

variable {P : Json → Prop}

mutual

/-- A block all of whose literals are as reading leaves them and have numbers with a property. -/
def Block.IsLoaded (P : Json → Prop) : Block → Prop
  | ⟨_, _, children, _, _⟩ => Node.AllLoaded P children

/-- Nodes that are all loaded. -/
def Node.AllLoaded (P : Json → Prop) : List Node → Prop
  | [] => True
  | n :: rest => Node.IsLoaded P n ∧ Node.AllLoaded P rest

/-- A node that is loaded, as `Block.IsLoaded` says. -/
def Node.IsLoaded (P : Json → Prop) : Node → Prop
  | .block b => Block.IsLoaded P b
  | .condition c => Condition.IsLoaded P c

/-- A condition that is loaded. -/
def Condition.IsLoaded (P : Json → Prop) : Condition → Prop
  | ⟨_, _, _, operand, _⟩ => Operand.IsLoaded P operand

/-- An operand that is loaded: a literal in it looks neither like a block nor like a list
condition. -/
def Operand.IsLoaded (P : Json → Prop) : Operand → Prop
  | .literal v => Operand.ofJson v = .literal v ∧ v.AllNumbers P
  | .nested b => Block.IsLoaded P b
  | .list d => ListCondition.IsLoaded P d

/-- A list condition that is loaded: the value that an aggregate is compared with is canonical and
not null. -/
def ListCondition.IsLoaded (P : Json → Prop) : ListCondition → Prop
  | ⟨_, _, _, operand, _, comparisonValue, _⟩ =>
    Operand.IsLoaded P operand ∧
      ∀ v ∈ comparisonValue, (v.canonical = v ∧ v.isNull = false) ∧ v.AllNumbers P

end

private theorem Node.allLoaded_iff {nodes : List Node} :
    Node.AllLoaded P nodes ↔ ∀ n ∈ nodes, n.IsLoaded P := by
  induction nodes with
  | nil => simp [Node.AllLoaded]
  | cons n rest ih => rw [Node.AllLoaded, ih, List.forall_mem_cons]

/-! ## What is read is loaded -/

/-- A meaning that is loaded in whatever place it stands. -/
structure Reading.IsLoaded (P : Json → Prop) (r : Reading) : Prop where
  value : r.value.AllNumbers P
  operand : r.operand.IsLoaded P
  block : ∀ b ∈ r.block, b.IsLoaded P
  node : ∀ n ∈ r.node, n.IsLoaded P
  nodes : ∀ ns ∈ r.nodes, Node.AllLoaded P ns

section Read

variable {record : Layer Reading}

private theorem Block.isLoaded_of_ofRecord? {isChild : Bool} {b : Block}
    (h : ∀ r ∈ record.parts, r.IsLoaded P) (hb : Block.ofRecord? isChild record = some b) :
    b.IsLoaded P := by
  rw [Block.ofRecord?] at hb
  obtain ⟨fields, hfields, hb⟩ := Option.bind_eq_some_iff.mp hb
  split at hb
  · simp only [Option.bind_eq_bind, Option.bind_eq_some_iff] at hb
    obtain ⟨_, -, _, -, r, rfl, nodes, hnodes, _, -, _, -, heq⟩ := hb
    cases heq
    exact (h r (Layer.mem_parts_of_fields? hfields (by simp))).nodes nodes hnodes
  · cases hb

/-- The operand of a record, null where it is missing. -/
theorem Operand.isLoaded_of_field {field : Option Reading}
    (h : ∀ r ∈ field, r.IsLoaded P) :
    (field.elim (Operand.literal .null) Reading.operand).IsLoaded P := by
  cases field with
  | none => exact ⟨rfl, Json.allNumbers_flat rfl rfl⟩
  | some r => exact (h r rfl).operand

private theorem Condition.isLoaded_of_ofRecord? {c : Condition}
    (h : ∀ r ∈ record.parts, r.IsLoaded P) (hc : Condition.ofRecord? record = some c) :
    c.IsLoaded P := by
  rw [Condition.ofRecord?] at hc
  obtain ⟨fields, hfields, hc⟩ := Option.bind_eq_some_iff.mp hc
  split at hc
  · simp only [Option.bind_eq_bind, Option.bind_eq_some_iff] at hc
    obtain ⟨_, -, _, -, _, -, heq⟩ := hc
    cases heq
    refine Operand.isLoaded_of_field fun r hr ↦ h r ?_
    cases hr
    exact Layer.mem_parts_of_fields? hfields (by simp)
  · cases hc

private theorem ListCondition.isLoaded_of_ofRecord? {d : ListCondition}
    (h : ∀ r ∈ record.parts, r.IsLoaded P) (hd : ListCondition.ofRecord? record = some d) :
    d.IsLoaded P := by
  rw [ListCondition.ofRecord?] at hd
  obtain ⟨fields, hfields, hd⟩ := Option.bind_eq_some_iff.mp hd
  split at hd
  · simp only [Option.bind_eq_bind, Option.bind_eq_some_iff] at hd
    obtain ⟨_, -, hd⟩ := hd
    split at hd
    · simp only [Option.bind_eq_some_iff] at hd
      obtain ⟨_, -, _, -, _, -, _, -, heq⟩ := hd
      cases heq
      refine ⟨Operand.isLoaded_of_field fun r hr ↦ h r ?_, fun v hv ↦ ?_⟩
      · cases hr
        exact Layer.mem_parts_of_fields? hfields (by simp)
      · obtain ⟨r, hvalue, hr⟩ := Option.bind_eq_some_iff.mp hv
        split at hr
        · cases hr
        · next hnull =>
          cases hr
          cases hvalue
          have hnumbers := (h r (Layer.mem_parts_of_fields? hfields (by simp))).value
          exact ⟨⟨Json.canonical_canonical _, canonical_isNull.trans (eq_false_of_ne_true hnull)⟩,
            hnumbers.canonical⟩
    · cases hd
  · cases hd

private theorem Node.isLoaded_of_ofRecord? {kind : NodeKind} {n : Node}
    (h : ∀ r ∈ record.parts, r.IsLoaded P) (hn : Node.ofRecord? kind record = some n) :
    n.IsLoaded P := by
  cases kind with
  | block =>
    obtain ⟨b, hb, rfl⟩ := Option.map_eq_some_iff.mp hn
    exact Block.isLoaded_of_ofRecord? h hb
  | condition =>
    obtain ⟨c, hc, rfl⟩ := Option.map_eq_some_iff.mp hn
    exact Condition.isLoaded_of_ofRecord? h hc

private theorem Node.isLoaded_of_ofLayer? {n : Node}
    (h : ∀ r ∈ record.parts, r.IsLoaded P) (hn : Node.ofLayer? record = some n) : n.IsLoaded P := by
  match record, h, hn with
  | .items (kind :: parts), h, hn =>
    rw [Node.ofLayer?_items] at hn
    obtain ⟨k, -, hn⟩ := Option.bind_eq_some_iff.mp hn
    have hparts : ∀ r ∈ (Layer.items parts).parts, r.IsLoaded P :=
      fun r hr ↦ h r (List.mem_cons_of_mem _ hr)
    exact Node.isLoaded_of_ofRecord? hparts hn
  | .members parts, h, hn =>
    rw [Node.ofLayer?_members] at hn
    obtain ⟨_, -, hn⟩ := Option.bind_eq_some_iff.mp hn
    obtain ⟨k, -, hn⟩ := Option.bind_eq_some_iff.mp hn
    refine Node.isLoaded_of_ofRecord? (fun r hr ↦ ?_) hn
    obtain ⟨m, hm, rfl⟩ := List.mem_map.mp hr
    exact h _ (List.mem_map_of_mem (List.mem_of_mem_filter hm))

end Read

namespace Reading

private theorem isLoaded_operand {v : Json} (h : v.distinctKeys = true) (hnumbers : v.AllNumbers P)
    (hlist : ∀ d ∈ (ofJson v).listCondition, d.IsLoaded P)
    (hblock : ∀ b ∈ (ofJson v).block, b.IsLoaded P) : (ofJson v).operand.IsLoaded P := by
  have hsame : Operand.ofJson v.canonical = (ofJson v).operand := by
    rw [Operand.ofJson, ofJson_canonical h, operand_canonical]
  rw [operand] at hsame ⊢
  split
  · next heq => exact hlist _ heq
  · next heq => exact hblock _ heq
  · next hnolist hnoblock =>
    rw [hnolist, hnoblock] at hsame
    rw [value_ofJson] at hsame ⊢
    exact ⟨hsame, hnumbers.canonical⟩

private theorem isLoaded_ofLayer {v : Json} (h : v.distinctKeys = true) (hnumbers : v.AllNumbers P)
    {record : Layer Reading} (hv : ofJson v = ofLayer record)
    (hparts : ∀ r ∈ record.parts, r.IsLoaded P) : (ofJson v).IsLoaded P where
  value := by rwa [value_ofJson]
  operand := isLoaded_operand h hnumbers
    (fun d hd ↦ ListCondition.isLoaded_of_ofRecord? hparts (by rwa [hv] at hd))
    (fun b hb ↦ Block.isLoaded_of_ofRecord? hparts (by rwa [hv] at hb))
  block b hb := Block.isLoaded_of_ofRecord? hparts (by rwa [hv] at hb)
  node n hn := Node.isLoaded_of_ofLayer? hparts (by rwa [hv] at hn)
  nodes ns hns := by
    rw [hv] at hns
    obtain ⟨parts, hitems, hns⟩ := Option.bind_eq_some_iff.mp hns
    match record, hitems with
    | .items parts, rfl =>
      refine Node.allLoaded_iff.mpr fun n hn ↦ ?_
      obtain ⟨r, hr, hnode⟩ := exists_of_mem_mapM hns hn
      exact (hparts r hr).node n hnode

private theorem isLoaded_ofJson {v : Json} (h : v.distinctKeys = true) (hnumbers : v.AllNumbers P) :
    (ofJson v).IsLoaded P := by
  induction v using Json.induction with
  | scalar v hv => exact isLoaded_ofLayer h hnumbers (ofJson_flat hv) (List.forall_mem_nil _)
  | arr items ih =>
    refine isLoaded_ofLayer h hnumbers (ofJson_arr items) fun r hr ↦ ?_
    obtain ⟨v, hv, rfl⟩ := List.mem_map.mp hr
    exact ih v hv (Json.distinctKeys_arr_iff.mp h v hv) (Json.allNumbers_arr_iff.mp hnumbers v hv)
  | obj members ih =>
    refine isLoaded_ofLayer h hnumbers (ofJson_obj members) fun r hr ↦ ?_
    obtain ⟨m, hm, rfl⟩ := List.mem_map.mp hr
    obtain ⟨n, hn, rfl⟩ := List.mem_map.mp hm
    exact ih n hn ((Json.distinctKeys_obj_iff.mp h).2 n hn)
      (Json.allNumbers_obj_iff.mp hnumbers n hn)

end Reading

/-- The root blocks of a value without repeated keys are loaded. -/
theorem Block.isLoaded_of_rootsOfJson? {v : Json} {bs : List Block} (hkeys : v.distinctKeys = true)
    (hnumbers : v.AllNumbers P) (h : Block.rootsOfJson? v = some bs) :
    ∀ b ∈ bs, b.IsLoaded P := by
  rw [rootsOfJson?] at h
  intro b hb
  cases hlist : v.items?.bind (·.mapM fun item ↦ (Reading.ofJson item).block) with
  | some found =>
    rw [hlist] at h
    cases h
    obtain ⟨items, hitems, hfound⟩ := Option.bind_eq_some_iff.mp hlist
    obtain ⟨item, hitem, hblock⟩ := exists_of_mem_mapM hfound hb
    match v, hitems with
    | .arr _, rfl =>
      have hloaded := Reading.isLoaded_ofJson (Json.distinctKeys_arr_iff.mp hkeys item hitem)
        (Json.allNumbers_arr_iff.mp hnumbers item hitem)
      exact hloaded.block b hblock
  | none =>
    rw [hlist] at h
    obtain ⟨root, hroot, rfl⟩ := Option.map_eq_some_iff.mp h
    rw [List.mem_singleton.mp hb]
    exact (Reading.isLoaded_ofJson hkeys hnumbers).block root hroot

end FilterPipeline
