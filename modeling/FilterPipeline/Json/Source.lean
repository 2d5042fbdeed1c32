import FilterPipeline.Json.Basic

/-!
# JSON as it stands in a text

A text may hold what no value can: a number past the greatest double, a string with half a surrogate
pair, nesting without end. Such a text is well formed all the same, and a reader that passes over
the place must not mind. `Source` is a text's structure with those places marked. Members keep their
order and their repetitions.
-/

namespace FilterPipeline

/-- The structure of a well-formed JSON text. -/
inductive Source where
  | null
  | bool (b : Bool)
  | int (n : Int)
  | double (x : Double)
  | str (s : String)
  | arr (items : List Source)
  /-- The members in the order of the text; a key that no string spells is missing. -/
  | obj (members : List (Option String × Source))
  /-- A place that holds no value. -/
  | unreadable
deriving Inhabited

/-- The part of a document that a reader looks at. -/
inductive Shape where
  /-- All of it. -/
  | all
  /-- In a list, of every item the part that the shape tells. -/
  | list (item : Shape)
  /-- In a record, the fields with these names; in a list, the items in the places of the fields. -/
  | record (fields : List (List String × Shape))

namespace Source

mutual

/-- The value that a text spells, when every place of it holds one. Repeated members are kept. -/
def toJson? : Source → Option Json
  | .null => some .null
  | .bool b => some (.bool b)
  | .int n => some (.int n)
  | .double x => some (.double x)
  | .str s => some (.str s)
  | .arr items => (itemsToJson? items).map .arr
  | .obj members => (membersToJson? members).map .obj
  | .unreadable => none

/-- `toJson?` on every item of a list. -/
def itemsToJson? : List Source → Option (List Json)
  | [] => some []
  | v :: rest => do some ((← v.toJson?) :: (← itemsToJson? rest))

/-- `toJson?` on every member of an object. -/
def membersToJson? : List (Option String × Source) → Option (List (String × Json))
  | [] => some []
  | (key, v) :: rest => do some ((← key, ← v.toJson?) :: (← membersToJson? rest))

end

mutual

/-- Leaves out the members that a reader passes over. -/
def restrict : Shape → Source → Source
  | .list item, .arr items => .arr (restrictItems item items)
  | .record fields, .arr items => .arr (restrictPlaces fields items)
  | .record fields, .obj members => .obj (restrictMembers fields members)
  | _, v => v

/-- Restricts every item to one shape. -/
def restrictItems (item : Shape) : List Source → List Source
  | [] => []
  | v :: rest => restrict item v :: restrictItems item rest

/-- Restricts the items in the places of fields to the shapes of those fields. -/
def restrictPlaces : List (List String × Shape) → List Source → List Source
  | _, [] => []
  | [], rest => rest
  | (_, shape) :: fields, v :: rest => restrict shape v :: restrictPlaces fields rest

/-- Keeps the members that a field is named for, and those whose key cannot be read. -/
def restrictMembers (fields : List (List String × Shape)) :
    List (Option String × Source) → List (Option String × Source)
  | [] => []
  | (none, v) :: rest => (none, v) :: restrictMembers fields rest
  | (some key, v) :: rest =>
    match fields.find? (·.1.contains key) with
    | some (_, shape) => (some key, restrict shape v) :: restrictMembers fields rest
    | none => restrictMembers fields rest

end

end Source
end FilterPipeline
