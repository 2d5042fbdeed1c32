import FilterPipeline.Fault
import FilterPipeline.Filter.Tree
import Std.Data.HashMap

/-!
# Editing a filter by node ids

An arena holds the nodes of a filter in numbered slots and finds them by their ids, so an edit
touches only the slots of the nodes it changes. Predicates on array elements are part of their
condition and have no slots.
-/

namespace FilterPipeline

/-- What a slot holds besides its place in the tree. -/
inductive Payload where
  | block (logic : Logic) (name : Option String) (mustHold : Bool)
  | condition (c : Condition)

/-- A node in its place. -/
structure Slot where
  id : String
  parent : Option Nat
  children : List Nat
  payload : Payload

/-- A filter whose nodes can be edited by id. -/
structure Arena where
  /-- The nodes; the slot of a removed node stays empty. -/
  slots : Array (Option Slot)
  /-- The slots of the nodes that are there. -/
  index : Std.HashMap String Nat
  /-- The slots of the root blocks, in order. -/
  roots : List Nat
  /-- The number in the next generated id. -/
  nextId : Nat

/-- A change of one part of a condition. -/
inductive ConditionEdit where
  | field (field : Option String)
  | operator (operator : Option Operator)
  | operand (operand : Operand)
  | switch (switch : Option Bool)

/-- The condition after a change. -/
def ConditionEdit.apply : ConditionEdit → Condition → Condition
  | .field f, c => { c with field := f }
  | .operator op, c => { c with operator := op }
  | .operand v, c => { c with operand := v }
  | .switch b, c => { c with switch := b }

namespace Arena

/-- The arena without nodes. -/
def empty : Arena := ⟨#[], ∅, [], 0⟩

/-- The node in a slot. -/
def slot? (a : Arena) (i : Nat) : Option Slot := a.slots[i]?.join

/-- The slot of an id. -/
def find? (a : Arena) (id : String) : Option Nat := a.index[id]?

/-- The number of nodes. -/
def size (a : Arena) : Nat := a.index.size

/-- Whether there is no node. -/
def isEmpty (a : Arena) : Bool := a.index.isEmpty

/-- Whether there is a node with an id. -/
def contains (a : Arena) (id : String) : Bool := a.index.contains id

/-- A generated id. -/
def generatedId (n : Nat) : String := "node-" ++ toString n

/-- The first number from `n` on whose id is free, if one of the next `fuel` is. -/
def freeNumber (a : Arena) : (fuel n : Nat) → Nat
  | 0, n => n
  | fuel + 1, n => if a.contains (generatedId n) then a.freeNumber fuel (n + 1) else n

/-- An id for a new node: the one asked for, unless it is empty or taken, and else a generated
one. -/
def freshId (a : Arena) (requested : String) : String × Arena :=
  if !requested.isEmpty && !a.contains requested then (requested, a)
  else
    let n := a.freeNumber a.size a.nextId
    (generatedId n, { a with nextId := n + 1 })

/-- Puts a new node without children into a new slot. -/
def push (a : Arena) (id : String) (parent : Option Nat) (payload : Payload) : Nat × Arena :=
  let i := a.slots.size
  (i, { a with
    slots := a.slots.push (some ⟨id, parent, [], payload⟩)
    index := a.index.insert id i })

/-- Changes the node in a slot. -/
def modifySlot (a : Arena) (i : Nat) (f : Slot → Slot) : Arena :=
  { a with slots := a.slots.modify i (Option.map f) }

/-- Makes a node the last child of a block. -/
def attach (a : Arena) (parent child : Nat) : Arena :=
  a.modifySlot parent fun s ↦ { s with children := s.children ++ [child] }

/-- Adds a condition under a parent, which does not list it yet. -/
def insertCondition (a : Arena) (parent : Option Nat) (c : Condition) : Nat × Arena :=
  let (id, a) := a.freshId c.id
  a.push id parent (.condition { c with id })

mutual

/-- Adds a block with all its children under a parent, which does not list it yet. -/
def insertBlock (a : Arena) (parent : Option Nat) : Block → Nat × Arena
  | ⟨id, logic, children, name, mustHold⟩ =>
    let (id, a) := a.freshId id
    let (i, a) := a.push id parent (.block logic name mustHold)
    (i, a.insertChildren i children)

/-- Adds nodes as the last children of a block. -/
def insertChildren (a : Arena) (parent : Nat) : List Node → Arena
  | [] => a
  | n :: rest =>
    let (i, a) := a.insertNode (some parent) n
    (a.attach parent i).insertChildren parent rest

/-- Adds a node under a parent, which does not list it yet. -/
def insertNode (a : Arena) (parent : Option Nat) : Node → Nat × Arena
  | .block b => a.insertBlock parent b
  | .condition c => a.insertCondition parent c

end

/-- Adds a root block. -/
def pushRoot (a : Arena) (b : Block) : Nat × Arena :=
  let (i, a) := a.insertBlock none b
  (i, { a with roots := a.roots ++ [i] })

/-- The arena of a filter. Nodes whose id is empty or taken get generated ones. -/
def ofBlocks (blocks : List Block) : Arena := blocks.foldl (fun a b ↦ (a.pushRoot b).2) empty

/-- The tree below a slot, down to a number of levels. -/
def build? (a : Arena) : (levels i : Nat) → Option Node
  | 0, _ => none
  | levels + 1, i => do
    let s ← a.slot? i
    match s.payload with
    | .condition c => some (.condition c)
    | .block logic name mustHold =>
      some (.block ⟨s.id, logic, s.children.filterMap (a.build? levels), name, mustHold⟩)

/-- The block that a node is. -/
def blockOf? : Node → Option Block
  | .block b => some b
  | .condition _ => none

/-- The filter that an arena holds. -/
def toBlocks (a : Arena) : List Block :=
  a.roots.filterMap fun i ↦ (a.build? a.slots.size i).bind blockOf?

/-- The ids of the nodes in slots. -/
def idsOf (a : Arena) (slots : List Nat) : List String :=
  slots.filterMap fun i ↦ (a.slot? i).map Slot.id

/-- The ids of the root blocks. -/
def rootIds (a : Arena) : List String := a.idsOf a.roots

/-- The slot of an id and the node in it. -/
def node? (a : Arena) (id : String) : Except Fault (Nat × Slot) :=
  match a.find? id with
  | none => .error (.nodeNotFound id)
  | some i =>
    match a.slot? i with
    | none => .error (.nodeNotFound id)
    | some s => .ok (i, s)

/-- The slot of a block. -/
def blockSlot? (a : Arena) (id : String) : Except Fault Nat := do
  let (i, s) ← a.node? id
  match s.payload with
  | .block .. => .ok i
  | .condition _ => .error (.notABlock id)

/-- The id of the block that a node is a child of. -/
def parent? (a : Arena) (id : String) : Except Fault (Option String) := do
  let (_, s) ← a.node? id
  .ok ((s.parent.bind a.slot?).map Slot.id)

/-- The ids of the children of a block. -/
def children? (a : Arena) (id : String) : Except Fault (List String) := do
  let (_, s) ← a.node? id
  match s.payload with
  | .block .. => .ok (a.idsOf s.children)
  | .condition _ => .error (.notABlock id)

/-- The condition with an id. -/
def condition? (a : Arena) (id : String) : Option Condition := do
  let s ← a.slot? (← a.find? id)
  match s.payload with
  | .condition c => some c
  | .block .. => none

/-- The logic of the block with an id. -/
def logic? (a : Arena) (id : String) : Option Logic := do
  let s ← a.slot? (← a.find? id)
  match s.payload with
  | .block logic .. => some logic
  | .condition _ => none

/-- The id of the node in a slot. -/
def idOf (a : Arena) (i : Nat) : String := ((a.slot? i).map Slot.id).getD ""

/-- A new block: one condition in which nothing has been chosen yet. -/
def newBlock (logic : Logic) : Block := ⟨"", logic, [.condition .empty], none, true⟩

/-- Adds a condition as the last child of a block, and tells its id. -/
def addCondition (a : Arena) (parent : String) (c : Condition) : Except Fault (String × Arena) := do
  let p ← a.blockSlot? parent
  let (i, a) := a.insertCondition (some p) c
  let a := a.attach p i
  .ok (a.idOf i, a)

/-- Adds a new block as the last child of a block, and tells its id. -/
def addBlock (a : Arena) (parent : String) (logic : Logic) : Except Fault (String × Arena) := do
  let p ← a.blockSlot? parent
  let (i, a) := a.insertBlock (some p) (newBlock logic)
  let a := a.attach p i
  .ok (a.idOf i, a)

/-- Adds a new block as the last root, and tells its id. -/
def addRoot (a : Arena) (logic : Logic) : String × Arena :=
  let (i, a) := a.pushRoot (newBlock logic)
  (a.idOf i, a)

/-- Changes one part of a condition. -/
def updateCondition (a : Arena) (id : String) (edit : ConditionEdit) : Except Fault Arena := do
  let (i, s) ← a.node? id
  match s.payload with
  | .condition c => .ok (a.modifySlot i fun s ↦ { s with payload := .condition (edit.apply c) })
  | .block .. => .error (.notACondition id)

/-- Changes the payload of a block. -/
def modifyBlock (a : Arena) (id : String) (f : Logic → Option String → Bool → Payload) :
    Except Fault Arena := do
  let i ← a.blockSlot? id
  .ok (a.modifySlot i fun s ↦
    match s.payload with
    | .block logic name mustHold => { s with payload := f logic name mustHold }
    | .condition _ => s)

/-- Sets the logic of a block. -/
def setLogic (a : Arena) (id : String) (logic : Logic) : Except Fault Arena :=
  a.modifyBlock id fun _ name mustHold ↦ .block logic name mustHold

/-- Names a block, and tells whether it must hold. -/
def setName (a : Arena) (id : String) (name : Option String) (mustHold : Bool) :
    Except Fault Arena :=
  a.modifyBlock id fun logic _ _ ↦ .block logic name mustHold

/-- Empties a slot and those below it, down to a number of levels. -/
def dropTree : (levels : Nat) → (a : Arena) → (i : Nat) → Arena
  | 0, a, _ => a
  | levels + 1, a, i =>
    match a.slot? i with
    | none => a
    | some s =>
      s.children.foldl (dropTree levels)
        { a with slots := a.slots.setIfInBounds i none, index := a.index.erase s.id }

/-- Removes a node with everything below it. A root that loses its last child gets a condition in
which nothing has been chosen yet. -/
def remove (a : Arena) (id : String) : Except Fault Arena := do
  let i ← (a.find? id).elim (.error (.nodeNotFound id)) .ok
  let parent := (a.slot? i).bind Slot.parent
  let a := dropTree a.slots.size a i
  match parent with
  | none => .ok { a with roots := a.roots.filter (· != i) }
  | some p =>
    let a := a.modifySlot p fun s ↦ { s with children := s.children.filter (· != i) }
    if (a.slot? p).any (·.children.isEmpty) && a.roots.contains p then
      let (filler, a) := a.insertCondition (some p) .empty
      .ok (a.attach p filler)
    else .ok a

end Arena
end FilterPipeline
