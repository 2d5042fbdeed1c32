import FilterPipeline.Number.Double

/-!
# JSON values

The values that filters, schemas and pipelines are made of. Whole numbers and binary64 numbers are
kept apart, as the format's readers and writers do. The members of an object are a list; an object
whose keys increase is canonical, and `Json.canonical` brings any value into that form.
-/

namespace FilterPipeline

/-- A JSON value. -/
inductive Json where
  | null
  | bool (b : Bool)
  | int (n : Int)
  | double (x : Double)
  | str (s : String)
  | arr (items : List Json)
  | obj (members : List (String × Json))
deriving Inhabited

/-- The members of an object. -/
abbrev Members := List (String × Json)

namespace Members

/-- The value of a member. -/
def get? (members : Members) (key : String) : Option Json := members.lookup key

/-- Whether there is a member with this key. -/
def has (members : Members) (key : String) : Bool := (members.get? key).isSome

/-- Gives a key a value, in the place that the order of keys demands; an earlier value of the key
is lost. -/
def insert (key : String) (value : Json) : Members → Members
  | [] => [(key, value)]
  | (k, v) :: rest =>
    if key < k then (key, value) :: (k, v) :: rest
    else if key = k then (key, value) :: rest
    else (k, v) :: insert key value rest

/-- The members in the order of their keys; of several with one key the last one stays. -/
def ofList (entries : List (String × Json)) : Members :=
  entries.foldl (fun members (key, value) ↦ insert key value members) []

end Members

namespace Json

/-- The object with one member. -/
def single (key : String) (value : Json) : Json := .obj [(key, value)]

mutual

/-- The value with the members of every object in the order of their keys. -/
def canonical : Json → Json
  | .arr items => .arr (canonicalItems items)
  | .obj members => .obj (Members.ofList (canonicalMembers members))
  | v => v

/-- `canonical` on every value of a list. -/
def canonicalItems : List Json → List Json
  | [] => []
  | v :: rest => canonical v :: canonicalItems rest

/-- `canonical` on the value of every member. -/
def canonicalMembers : List (String × Json) → List (String × Json)
  | [] => []
  | (key, v) :: rest => (key, canonical v) :: canonicalMembers rest

end

mutual

/-- Whether two values are equal; binary64 numbers are compared as numbers. -/
def same : Json → Json → Bool
  | .null, .null => true
  | .bool a, .bool b => a == b
  | .int a, .int b => a == b
  | .double a, .double b => a.same b
  | .str a, .str b => a == b
  | .arr a, .arr b => sameItems a b
  | .obj a, .obj b => sameMembers a b
  | _, _ => false

/-- Whether two lists have equal values in equal places. -/
def sameItems : List Json → List Json → Bool
  | [], [] => true
  | a :: as, b :: bs => same a b && sameItems as bs
  | _, _ => false

/-- Whether two member lists have equal keys and values in equal places. -/
def sameMembers : List (String × Json) → List (String × Json) → Bool
  | [], [] => true
  | (k, a) :: as, (l, b) :: bs => k == l && same a b && sameMembers as bs
  | _, _ => false

end

/-- The string that a value is. -/
def string? : Json → Option String
  | .str s => some s
  | _ => none

/-- The truth value that a value is. -/
def bool? : Json → Option Bool
  | .bool b => some b
  | _ => none

/-- The items of a list. -/
def items? : Json → Option (List Json)
  | .arr items => some items
  | _ => none

/-- Whether a value is null. -/
def isNull : Json → Bool
  | .null => true
  | _ => false

/-- Whether a value is the empty string. -/
def isEmptyString : Json → Bool
  | .str s => s.isEmpty
  | _ => false

/-- Whether a value is a number. -/
def isNumber : Json → Bool
  | .int _ | .double _ => true
  | _ => false

/-- Whether a value is a string. -/
def isString (v : Json) : Bool := v.string?.isSome

/-- The value of a member of an object. -/
def get? (v : Json) (key : String) : Option Json :=
  match v with
  | .obj members => members.lookup key
  | _ => none

/-- The greatest magnitude up to which whole numbers are exact in binary64, `2 ^ 53`. -/
def exactBound : Nat := 9007199254740992

/-- A computed number: whole numbers up to the exact bound become integers, and what is not finite
becomes null. -/
def ofDouble (x : Double) : Json :=
  match x.toInt? with
  | some n => if n.natAbs ≤ exactBound then .int n else .double x
  | none => if x.isFinite then .double x else .null

/-- The binary64 value of a number. -/
def toDouble? : Json → Option Double
  | .int n => some (.ofInt n)
  | .double x => some x
  | _ => none

end Json
end FilterPipeline
