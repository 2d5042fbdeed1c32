import FilterPipeline.Filter.Arena
import FilterPipeline.Proofs.UsedNames

/-!
# Edits of a filter that is a tree

What an edit means is said on the tree itself: nodes are addressed by their ids, and an edit changes
the addressed node where it stands. `Draft.edit` is one whole edit. Element predicates are part of
their condition and are not looked into.
-/

namespace FilterPipeline

/-- An edit of a filter. -/
inductive Edit where
  | addCondition (parent : String) (c : Condition)
  | addBlock (parent : String) (logic : Logic)
  | addRoot (logic : Logic)
  | updateCondition (id : String) (change : ConditionEdit)
  | setLogic (id : String) (logic : Logic)
  | setName (id : String) (name : Option String) (mustHold : Bool)
  | remove (id : String)

/-- The id of a node. -/
def Node.id : Node → String
  | .block b => b.id
  | .condition c => c.id

mutual

/-- A block and all nodes below it, each before what lies below it. -/
def Block.nodes : Block → List Node
  | b@⟨_, _, children, _, _⟩ => .block b :: Node.nodesOf children

/-- Several nodes and all nodes below them. -/
def Node.nodesOf : List Node → List Node
  | [] => []
  | n :: rest => Node.nodes n ++ Node.nodesOf rest

/-- A node and all nodes below it. -/
def Node.nodes : Node → List Node
  | .block b => b.nodes
  | .condition c => [.condition c]

end

mutual

/-- The block in which every block and every condition is changed, those below one before it. -/
def Block.rewrite (f : Block → Block) (g : Condition → Condition) : Block → Block
  | ⟨id, logic, children, name, mustHold⟩ =>
    f ⟨id, logic, Node.rewriteAll f g children, name, mustHold⟩

/-- The nodes in which every block and every condition is changed. -/
def Node.rewriteAll (f : Block → Block) (g : Condition → Condition) : List Node → List Node
  | [] => []
  | n :: rest => Node.rewrite f g n :: Node.rewriteAll f g rest

/-- The node in which every block and every condition is changed. -/
def Node.rewrite (f : Block → Block) (g : Condition → Condition) : Node → Node
  | .block b => .block (Block.rewrite f g b)
  | .condition c => .condition (g c)

end

namespace Block

/-- A node becomes the last child of the block, if that has an id. -/
def adopt (parent : String) (n : Node) (b : Block) : Block :=
  if b.id = parent then { b with children := b.children ++ [n] } else b

/-- A node becomes the last child of the block with an id. -/
def append (parent : String) (n : Node) : Block → Block := rewrite (adopt parent n) fun c ↦ c

/-- The condition with an id is changed. -/
def updateCondition (id : String) (change : Condition → Condition) : Block → Block :=
  rewrite (fun b ↦ b) fun c ↦ if c.id = id then change c else c

/-- The block with an id is changed. -/
def update (id : String) (change : Block → Block) : Block → Block :=
  rewrite (fun b ↦ if b.id = id then change b else b) fun c ↦ c

/-- The block without the children that have an id. -/
def disown (id : String) (b : Block) : Block :=
  { b with children := b.children.filter (·.id != id) }

/-- What stands below the block and has an id is taken away with all that lies below it. -/
def erase (id : String) : Block → Block := rewrite (disown id) fun c ↦ c

end Block

/-- A filter that is being edited. -/
structure Draft where
  blocks : List Block
  /-- The number in the next generated id. -/
  nextId : Nat

namespace Draft

/-- All nodes of a filter. -/
def nodes (d : Draft) : List Node := d.blocks.flatMap Block.nodes

/-- The ids of all nodes of a filter. -/
def ids (d : Draft) : List String := d.nodes.map Node.id

/-- The node with an id. -/
def find? (d : Draft) (id : String) : Option Node := d.nodes.find? (·.id == id)

/-- There is a node with an id. -/
def checkNode (d : Draft) (id : String) : Except Fault Unit :=
  if (d.find? id).isSome then .ok () else .error (.nodeNotFound id)

/-- There is a node with an id, and it is a block. -/
def checkBlock (d : Draft) (id : String) : Except Fault Unit :=
  match d.find? id with
  | some (.block _) => .ok ()
  | some (.condition _) => .error (.notABlock id)
  | none => .error (.nodeNotFound id)

/-- There is a node with an id, and it is a condition. -/
def checkCondition (d : Draft) (id : String) : Except Fault Unit :=
  match d.find? id with
  | some (.condition _) => .ok ()
  | some (.block _) => .error (.notACondition id)
  | none => .error (.nodeNotFound id)

/-- The first number from one on whose generated id is not taken. -/
def freeNumber (taken : List String) (start : Nat) : Nat :=
  ((List.range' start (taken.length + 1)).find? fun n ↦
    !taken.contains (Arena.generatedId n)).getD start

/-- An id for a new node, and the number for the next one: the id that is asked for, unless it is
empty or taken, and else a generated one. -/
def newId (taken : List String) (start : Nat) (requested : String) : String × Nat :=
  if requested = "" ∨ requested ∈ taken then
    (Arena.generatedId (freeNumber taken start), freeNumber taken start + 1)
  else (requested, start)

/-- The condition with an id that has no field, no operator, the null value and no switch. -/
def emptyCondition (id : String) : Node := .condition ⟨id, none, none, .literal .null, none⟩

/-- A new block with one empty condition, both with new ids, and the number for the next one. -/
def newBlock (d : Draft) (logic : Logic) : Block × Nat :=
  let (id, next) := newId d.ids d.nextId ""
  let (inner, next) := newId (id :: d.ids) next ""
  (⟨id, logic, [emptyCondition inner], none, true⟩, next)

/-- The filter without the node with an id and all that lies below it. -/
def erase (d : Draft) (id : String) : Draft :=
  { d with blocks := (d.blocks.filter (·.id != id)).map (Block.erase id) }

/-- The filter without the node with an id. A root block whose only child that was gets an empty
condition with a new id. -/
def remove (d : Draft) (id : String) : Draft :=
  match d.blocks.find? (·.children.map Node.id == [id]) with
  | none => d.erase id
  | some root =>
    let (filler, next) := newId (d.erase id).ids d.nextId ""
    ⟨(d.erase id).blocks.map (Block.append root.id (emptyCondition filler)), next⟩

/-- The filter in which the condition with an id is changed. -/
def updateCondition (d : Draft) (id : String) (change : Condition → Condition) :
    Except Fault (Option String × Draft) := do
  d.checkCondition id
  .ok (none, { d with blocks := d.blocks.map (Block.updateCondition id change) })

/-- An edit: the id of an added node, and the filter after the edit. -/
def edit (d : Draft) : Edit → Except Fault (Option String × Draft)
  | .addCondition parent c => do
    d.checkBlock parent
    let (id, next) := newId d.ids d.nextId c.id
    .ok (some id, ⟨d.blocks.map (Block.append parent (.condition { c with id })), next⟩)
  | .addBlock parent logic => do
    d.checkBlock parent
    let (b, next) := d.newBlock logic
    .ok (some b.id, ⟨d.blocks.map (Block.append parent (.block b)), next⟩)
  | .addRoot logic =>
    let (b, next) := d.newBlock logic
    .ok (some b.id, ⟨d.blocks ++ [b], next⟩)
  | .updateCondition id (.field field) => d.updateCondition id fun c ↦ { c with field }
  | .updateCondition id (.operator operator) => d.updateCondition id fun c ↦ { c with operator }
  | .updateCondition id (.operand operand) => d.updateCondition id fun c ↦ { c with operand }
  | .updateCondition id (.switch switch) => d.updateCondition id fun c ↦ { c with switch }
  | .setLogic id logic => do
    d.checkBlock id
    .ok (none, { d with blocks := d.blocks.map (Block.update id fun b ↦ { b with logic }) })
  | .setName id name mustHold => do
    d.checkBlock id
    .ok (none,
      { d with blocks := d.blocks.map (Block.update id fun b ↦ { b with name, mustHold }) })
  | .remove id => do
    d.checkNode id
    .ok (none, d.remove id)

end Draft

/-- The nodes below several are those below each of them. -/
theorem Node.nodesOf_eq (nodes : List Node) : Node.nodesOf nodes = nodes.flatMap Node.nodes := by
  induction nodes with
  | nil => rfl
  | cons n rest ih => rw [Node.nodesOf, ih, List.flatMap_cons]

/-- Several nodes are rewritten one by one. -/
theorem Node.rewriteAll_eq (f : Block → Block) (g : Condition → Condition) (nodes : List Node) :
    Node.rewriteAll f g nodes = nodes.map (Node.rewrite f g) := by
  induction nodes with
  | nil => rfl
  | cons n rest ih => rw [Node.rewriteAll, ih, List.map_cons]

/-- The nodes of a block are the block and those of its children. -/
theorem Block.nodes_eq (b : Block) : b.nodes = .block b :: b.children.flatMap Node.nodes := by
  cases b
  rw [Block.nodes, Node.nodesOf_eq]

/-- A block is rewritten after its children. -/
theorem Block.rewrite_eq (f : Block → Block) (g : Condition → Condition) (b : Block) :
    b.rewrite f g = f { b with children := b.children.map (Node.rewrite f g) } := by
  cases b
  rw [Block.rewrite, Node.rewriteAll_eq]

namespace Arena

private theorem generatedId_injective {m n : Nat} (h : generatedId m = generatedId n) : m = n := by
  rw [generatedId, generatedId, String.append_right_inj] at h
  exact toString_injective h

private theorem generatedId_ne (n : Nat) : generatedId n ≠ "" := by
  intro h
  have := congrArg String.toList h
  simp [generatedId] at this

/-- Of more generated ids than there are taken ones some is not taken. -/
theorem exists_generatedId_notMem (taken : List String) (start : Nat) :
    ∃ m, start ≤ m ∧ m ≤ start + taken.length ∧ generatedId m ∉ taken := by
  by_contra hall
  push Not at hall
  have htried : (List.range' start (taken.length + 1)).map generatedId ⊆ taken := by
    intro id hid
    obtain ⟨m, hm, rfl⟩ := List.mem_map.mp hid
    rw [List.mem_range'_1] at hm
    exact hall m hm.1 (by omega)
  have hnodup : ((List.range' start (taken.length + 1)).map generatedId).Nodup :=
    (List.nodup_range').map fun _ _ ↦ generatedId_injective
  have hlength := (hnodup.subperm htried).length_le
  rw [List.length_map, List.length_range'] at hlength
  exact absurd hlength (Nat.not_succ_le_self _)

end Arena

namespace Draft

open Arena (generatedId)

variable {taken taken' : List String} {start m : Nat}

/-- More numbers are tried than ids are taken, so the first free one is found. -/
theorem freeNumber_spec (taken : List String) (start : Nat) :
    start ≤ freeNumber taken start ∧
      (∀ m, start ≤ m → m < freeNumber taken start → generatedId m ∈ taken) ∧
      generatedId (freeNumber taken start) ∉ taken := by
  unfold freeNumber
  cases hfound : (List.range' start (taken.length + 1)).find? fun n ↦
      !taken.contains (generatedId n) with
  | none =>
    obtain ⟨m, hle, hlt, hfree⟩ := Arena.exists_generatedId_notMem taken start
    rw [List.find?_eq_none] at hfound
    have := hfound m (List.mem_range'_1.mpr ⟨hle, by omega⟩)
    simp [hfree] at this
  | some m =>
    obtain ⟨hfree, hmem, hbelow⟩ := List.find?_range'_eq_some.mp hfound
    simp only [List.contains_eq_mem, Bool.not_eq_true', decide_eq_false_iff_not, Bool.not_not,
      decide_eq_true_eq] at hfree hbelow
    exact ⟨(List.mem_range'_1.mp hmem).1, hbelow, hfree⟩

/-- There is only one first free number. -/
theorem eq_freeNumber (hle : start ≤ m) (hbelow : ∀ k, start ≤ k → k < m → generatedId k ∈ taken)
    (hfree : generatedId m ∉ taken) : m = freeNumber taken start := by
  obtain ⟨hle', hbelow', hfree'⟩ := freeNumber_spec taken start
  rcases Nat.lt_trichotomy m (freeNumber taken start) with hlt | heq | hgt
  · exact absurd (hbelow' m hle hlt) hfree
  · exact heq
  · exact absurd (hbelow _ hle' hgt) hfree'

private theorem freeNumber_congr (h : ∀ id, id ∈ taken ↔ id ∈ taken') (start : Nat) :
    freeNumber taken start = freeNumber taken' start := by
  obtain ⟨hle, hbelow, hfree⟩ := freeNumber_spec taken start
  exact eq_freeNumber hle (fun k hk hk' ↦ (h _).mp (hbelow k hk hk'))
    fun hmem ↦ hfree ((h _).mpr hmem)

/-- Only which ids are taken matters for a new id. -/
theorem newId_congr (h : ∀ id, id ∈ taken ↔ id ∈ taken') (start : Nat) (requested : String) :
    newId taken start requested = newId taken' start requested := by
  rw [newId, newId, freeNumber_congr h]
  exact if_congr (by rw [h]) rfl rfl

/-- A new id is no taken one, and not empty. -/
theorem newId_spec (taken : List String) (start : Nat) (requested : String) :
    (newId taken start requested).1 ≠ "" ∧ (newId taken start requested).1 ∉ taken := by
  rw [newId]
  split
  · exact ⟨Arena.generatedId_ne _, (freeNumber_spec taken start).2.2⟩
  · next h => exact not_or.mp h

/-- Of the condition with an id, an edit sets the part that it is about. -/
theorem edit_updateCondition (d : Draft) (id : String) (change : ConditionEdit) :
    d.edit (.updateCondition id change) = d.updateCondition id change.apply := by
  cases change <;> rfl

/-- The id of an added node is no node's before. -/
theorem notMem_ids_of_edit {d d' : Draft} {e : Edit} {id : String}
    (h : d.edit e = .ok (some id, d')) : id ≠ "" ∧ id ∉ d.ids := by
  cases e with
  | addCondition parent c =>
    cases hcheck : d.checkBlock parent <;>
      simp only [edit, hcheck, bind, Except.bind, Except.ok.injEq, Prod.mk.injEq, Option.some.injEq,
        reduceCtorEq] at h
    exact h.1 ▸ newId_spec d.ids d.nextId c.id
  | addBlock parent logic =>
    cases hcheck : d.checkBlock parent <;>
      simp only [edit, hcheck, bind, Except.bind, Except.ok.injEq, Prod.mk.injEq, Option.some.injEq,
        reduceCtorEq] at h
    exact h.1 ▸ newId_spec d.ids d.nextId ""
  | addRoot logic =>
    simp only [edit, Except.ok.injEq, Prod.mk.injEq, Option.some.injEq] at h
    exact h.1 ▸ newId_spec d.ids d.nextId ""
  | updateCondition id change =>
    rw [edit_updateCondition] at h
    cases hcheck : d.checkCondition id <;> simp [updateCondition, hcheck, bind, Except.bind] at h
  | setLogic id logic =>
    cases hcheck : d.checkBlock id <;> simp [edit, hcheck, bind, Except.bind] at h
  | setName id name mustHold =>
    cases hcheck : d.checkBlock id <;> simp [edit, hcheck, bind, Except.bind] at h
  | remove id =>
    cases hcheck : d.checkNode id <;> simp [edit, hcheck, bind, Except.bind] at h

end Draft

end FilterPipeline
