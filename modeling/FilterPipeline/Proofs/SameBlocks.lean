import FilterPipeline.Filter.Tree

/-!
# Equality of blocks

Blocks are compared as JSON values are, so that two that differ in the signs of zeros are equal.
Main statement: among blocks whose numbers are finite, as those of every JSON text are, two are
equal just when they become identical once zeros have lost their signs.
-/

namespace FilterPipeline

/-- The number with no sign on a zero. -/
def Double.unsigned : Double → Double
  | .finite _ 0 q => .finite false 0 q
  | x => x

/-- Finite numbers are equal when they are identical, signs of zeros aside. -/
theorem Double.same_iff {x y : Double} (hx : x.isFinite = true) :
    x.same y = true ↔ x.unsigned = y.unsigned := by
  cases x with
  | infinite a => cases hx
  | nan => cases hx
  | finite a m q =>
    cases y with
    | infinite b => cases m <;> simp [same, unsigned]
    | nan => cases m <;> simp [same, unsigned]
    | finite b n r => cases m <;> cases n <;> simp [same, unsigned, and_comm]

namespace Json

mutual

/-- Whether all numbers in a value are finite. -/
def isFinite : Json → Bool
  | .double x => x.isFinite
  | .arr items => itemsFinite items
  | .obj members => membersFinite members
  | _ => true

/-- Whether all numbers in several values are finite. -/
def itemsFinite : List Json → Bool
  | [] => true
  | v :: rest => isFinite v && itemsFinite rest

/-- Whether all numbers in the values of members are finite. -/
def membersFinite : List (String × Json) → Bool
  | [] => true
  | (_, v) :: rest => isFinite v && membersFinite rest

end

mutual

/-- The value with no signs on zeros. -/
def unsigned : Json → Json
  | .double x => .double x.unsigned
  | .arr items => .arr (unsignedItems items)
  | .obj members => .obj (unsignedMembers members)
  | v => v

/-- Several values with no signs on zeros. -/
def unsignedItems : List Json → List Json
  | [] => []
  | v :: rest => unsigned v :: unsignedItems rest

/-- Members with no signs on zeros. -/
def unsignedMembers : List (String × Json) → List (String × Json)
  | [] => []
  | (key, v) :: rest => (key, unsigned v) :: unsignedMembers rest

end

mutual

/-- Values with finite numbers are equal when they are identical, signs of zeros aside. -/
theorem same_iff : (v w : Json) → v.isFinite = true → (v.same w = true ↔ v.unsigned = w.unsigned)
  | .null, w, _ | .bool _, w, _ | .int _, w, _ | .str _, w, _ => by
    cases w <;> simp [same, unsigned]
  | .double x, w, h => by
    cases w with
    | double y => simpa [same, unsigned] using Double.same_iff h
    | null | bool _ | int _ | str _ | arr _ | obj _ => simp [same, unsigned]
  | .arr items, w, h => by
    cases w with
    | arr items' => simpa [same, unsigned] using sameItems_iff items items' h
    | null | bool _ | int _ | double _ | str _ | obj _ => simp [same, unsigned]
  | .obj members, w, h => by
    cases w with
    | obj members' => simpa [same, unsigned] using sameMembers_iff members members' h
    | null | bool _ | int _ | double _ | str _ | arr _ => simp [same, unsigned]

/-- Items with finite numbers are equal when they are identical, signs of zeros aside. -/
theorem sameItems_iff : (items items' : List Json) → itemsFinite items = true →
    (sameItems items items' = true ↔ unsignedItems items = unsignedItems items')
  | [], items', _ => by cases items' <;> simp [sameItems, unsignedItems]
  | v :: rest, [], _ => by simp [sameItems, unsignedItems]
  | v :: rest, w :: rest', h => by
    obtain ⟨hv, hrest⟩ := Bool.and_eq_true_iff.mp h
    simp [sameItems, unsignedItems, same_iff v w hv, sameItems_iff rest rest' hrest]

/-- Members with finite numbers are equal when they are identical, signs of zeros aside. -/
theorem sameMembers_iff : (members members' : List (String × Json)) →
    membersFinite members = true →
    (sameMembers members members' = true ↔ unsignedMembers members = unsignedMembers members')
  | [], members', _ => by cases members' <;> simp [sameMembers, unsignedMembers]
  | (key, v) :: rest, [], _ => by simp [sameMembers, unsignedMembers]
  | (key, v) :: rest, (key', w) :: rest', h => by
    obtain ⟨hv, hrest⟩ := Bool.and_eq_true_iff.mp h
    simp [sameMembers, unsignedMembers, same_iff v w hv, sameMembers_iff rest rest' hrest]

end

end Json

mutual

/-- The literals in a block, at any depth. -/
def Block.literals : Block → List Json
  | ⟨_, _, children, _, _⟩ => Node.literalsAll children

/-- The literals in several nodes. -/
def Node.literalsAll : List Node → List Json
  | [] => []
  | n :: rest => Node.literals n ++ Node.literalsAll rest

/-- The literals in a node. -/
def Node.literals : Node → List Json
  | .block b => Block.literals b
  | .condition ⟨_, _, _, operand, _⟩ => Operand.literals operand

/-- The literals in an operand. -/
def Operand.literals : Operand → List Json
  | .literal v => [v]
  | .nested b => Block.literals b
  | .list ⟨_, _, _, operand, _, comparisonValue, _⟩ =>
    Operand.literals operand ++ comparisonValue.toList

end

mutual

/-- The block with no signs on zeros. -/
def Block.unsigned : Block → Block
  | ⟨id, logic, children, name, mustHold⟩ =>
    ⟨id, logic, Node.unsignedAll children, name, mustHold⟩

/-- Several nodes with no signs on zeros. -/
def Node.unsignedAll : List Node → List Node
  | [] => []
  | n :: rest => Node.unsigned n :: Node.unsignedAll rest

/-- The node with no signs on zeros. -/
def Node.unsigned : Node → Node
  | .block b => .block (Block.unsigned b)
  | .condition ⟨id, field, operator, operand, switch⟩ =>
    .condition ⟨id, field, operator, Operand.unsigned operand, switch⟩

/-- The operand with no signs on zeros. -/
def Operand.unsigned : Operand → Operand
  | .literal v => .literal v.unsigned
  | .nested b => .nested (Block.unsigned b)
  | .list ⟨field, operator, subField, operand, comparison, comparisonValue, switch⟩ =>
    .list ⟨field, operator, subField, Operand.unsigned operand, comparison,
      comparisonValue.map Json.unsigned, switch⟩

end

/-- All numbers in the literals of a block are finite. -/
def Block.IsFinite (b : Block) : Prop := ∀ v ∈ b.literals, v.isFinite = true

/-- Whether a block is finite is decided by the numbers in its literals. -/
instance (b : Block) : Decidable b.IsFinite :=
  inferInstanceAs (Decidable (∀ v ∈ b.literals, v.isFinite = true))

mutual

/-- Blocks with finite numbers are equal when they are identical, signs of zeros aside. -/
theorem Block.same_iff : (a b : Block) → a.IsFinite → (a.same b = true ↔ a.unsigned = b.unsigned)
  | ⟨id, logic, children, name, mustHold⟩, ⟨id', logic', children', name', mustHold'⟩, h => by
    simp [Block.same, Block.unsigned, Node.sameAll_iff children children' h, and_assoc]

/-- Nodes with finite numbers are equal when they are identical, signs of zeros aside. -/
theorem Node.sameAll_iff : (ns ms : List Node) →
    (∀ v ∈ Node.literalsAll ns, v.isFinite = true) →
    (Node.sameAll ns ms = true ↔ Node.unsignedAll ns = Node.unsignedAll ms)
  | [], ms, _ => by cases ms <;> simp [Node.sameAll, Node.unsignedAll]
  | n :: ns, [], _ => by simp [Node.sameAll, Node.unsignedAll]
  | n :: ns, m :: ms, h => by
    simp only [Node.literalsAll, List.forall_mem_append] at h
    simp [Node.sameAll, Node.unsignedAll, Node.same_iff n m h.1, Node.sameAll_iff ns ms h.2]

/-- Two nodes with finite numbers are equal when they are identical, signs of zeros aside. -/
theorem Node.same_iff : (n m : Node) → (∀ v ∈ n.literals, v.isFinite = true) →
    (n.same m = true ↔ n.unsigned = m.unsigned)
  | .block a, .block b, h => by simpa [Node.same, Node.unsigned] using Block.same_iff a b h
  | .block a, .condition ⟨_, _, _, _, _⟩, _ => by simp [Node.same, Node.unsigned]
  | .condition ⟨_, _, _, _, _⟩, .block b, _ => by simp [Node.same, Node.unsigned]
  | .condition ⟨id, field, operator, operand, switch⟩,
    .condition ⟨id', field', operator', operand', switch'⟩, h => by
    simp [Node.same, Condition.same, Node.unsigned, Operand.same_iff operand operand' h, and_assoc]

/-- Operands with finite numbers are equal when they are identical, signs of zeros aside. -/
theorem Operand.same_iff : (a b : Operand) → (∀ v ∈ a.literals, v.isFinite = true) →
    (a.same b = true ↔ a.unsigned = b.unsigned)
  | .literal v, .literal w, h => by
    simpa [Operand.same, Operand.unsigned] using
      Json.same_iff v w (h v (by simp [Operand.literals]))
  | .literal v, .nested b, _ => by simp [Operand.same, Operand.unsigned]
  | .literal v, .list ⟨_, _, _, _, _, _, _⟩, _ => by simp [Operand.same, Operand.unsigned]
  | .nested a, .literal w, _ => by simp [Operand.same, Operand.unsigned]
  | .nested a, .nested b, h => by
    simpa [Operand.same, Operand.unsigned] using Block.same_iff a b h
  | .nested a, .list ⟨_, _, _, _, _, _, _⟩, _ => by simp [Operand.same, Operand.unsigned]
  | .list ⟨_, _, _, _, _, _, _⟩, .literal w, _ => by simp [Operand.same, Operand.unsigned]
  | .list ⟨_, _, _, _, _, _, _⟩, .nested b, _ => by simp [Operand.same, Operand.unsigned]
  | .list ⟨field, operator, subField, operand, comparison, comparisonValue, switch⟩,
    .list ⟨field', operator', subField', operand', comparison', comparisonValue', switch'⟩, h => by
    simp only [Operand.literals, List.forall_mem_append] at h
    have hoperand := Operand.same_iff operand operand' h.1
    cases comparisonValue with
    | none =>
      cases comparisonValue' with
      | none => simp [Operand.same, ListCondition.same, Operand.unsigned, hoperand, and_assoc]
      | some w => simp [Operand.same, ListCondition.same, Operand.unsigned]
    | some v =>
      cases comparisonValue' with
      | none => simp [Operand.same, ListCondition.same, Operand.unsigned]
      | some w =>
        have hvalue := Json.same_iff v w (h.2 v (by simp))
        simp [Operand.same, ListCondition.same, Operand.unsigned, hoperand, hvalue, and_assoc]

end

/-- A block with finite numbers equals itself. -/
theorem Block.same_self {a : Block} (h : a.IsFinite) : a.same a = true := (same_iff a a h).mpr rfl

end FilterPipeline
