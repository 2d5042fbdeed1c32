import FilterPipeline.Json.Token

/-!
# Reading a JSON text

The tokens of a text are put together with a stack of the lists and objects that are still open. A
list or object that lies deeper than `maxNesting` is marked as unreadable.
-/

namespace FilterPipeline.Json

/-- How many lists and objects may enclose each other. -/
def maxNesting : Nat := 127

/-- A list or object that is still open, with its parts so far in reverse. -/
inductive Frame where
  | list (items : List Source)
  /-- The members so far and the key whose value is being read. -/
  | object (members : List (Option String × Source)) (key : Option String)

/-- What may come next. -/
inductive Expected where
  | value
  | valueOrClose
  | key
  | keyOrClose
  | colon
  /-- A comma, or the end of the innermost list or object. -/
  | separator
  /-- Nothing but the end of the text. -/
  | finish (v : Source)

/-- The state of the reader; `nesting` is the height of the stack. -/
structure Builder where
  stack : List Frame
  nesting : Nat
  expected : Expected

namespace Builder

/-- Takes a value in as a part of the innermost list or object, or as the whole. -/
def put (v : Source) (stack : List Frame) (nesting : Nat) : Builder :=
  match stack with
  | [] => ⟨[], 0, .finish v⟩
  | .list items :: rest => ⟨.list (v :: items) :: rest, nesting, .separator⟩
  | .object members key :: rest => ⟨.object ((key, v) :: members) key :: rest, nesting, .separator⟩

/-- Ends the innermost list or object. -/
def close (b : Builder) : Option Builder :=
  match b.stack with
  | [] => none
  | frame :: rest =>
    let v := match frame with
      | .list items => .arr items.reverse
      | .object members _ => .obj members.reverse
    some (put (if maxNesting < b.nesting then .unreadable else v) rest (b.nesting - 1))

/-- Whether the innermost open part is a list. -/
def inList (b : Builder) : Bool :=
  match b.stack with
  | .list _ :: _ => true
  | _ => false

/-- Reads the first token of a value. -/
def start (b : Builder) : Token → Option Builder
  | .openList => some ⟨.list [] :: b.stack, b.nesting + 1, .valueOrClose⟩
  | .openObject => some ⟨.object [] none :: b.stack, b.nesting + 1, .keyOrClose⟩
  | .text s => some (put (s.elim .unreadable .str) b.stack b.nesting)
  | .scalar v => some (put v b.stack b.nesting)
  | _ => none

/-- Reads a key. -/
def readKey (b : Builder) (key : Option String) : Option Builder :=
  match b.stack with
  | .object members _ :: rest => some ⟨.object members key :: rest, b.nesting, .colon⟩
  | _ => none

/-- Reads one token. -/
def step (b : Builder) (t : Token) : Option Builder :=
  match b.expected, t with
  | .value, t => b.start t
  | .valueOrClose, .closeList => b.close
  | .valueOrClose, t => b.start t
  | .key, .text s => b.readKey s
  | .keyOrClose, .text s => b.readKey s
  | .keyOrClose, .closeObject => b.close
  | .colon, .colon => some { b with expected := .value }
  | .separator, .comma => some { b with expected := if b.inList then .value else .key }
  | .separator, .closeList => if b.inList then b.close else none
  | .separator, .closeObject => if b.inList then none else b.close
  | _, _ => none

end Builder

/-- The structure of a text, when it is well-formed JSON. -/
def readSource? (text : String) : Option Source := do
  let b ← (← tokens? text).foldlM Builder.step ⟨[], 0, .value⟩
  match b.expected with
  | .finish v => some v
  | _ => none

/-- The value that a text spells, with the members of objects as they stand. -/
def ofText? (text : String) : Option Json := do (← readSource? text).toJson?

/-- The value that a text spells for a reader that looks at a part of it only. -/
def ofTextWithin? (shape : Shape) (text : String) : Option Json := do
  ((← readSource? text).restrict shape).toJson?

end FilterPipeline.Json
