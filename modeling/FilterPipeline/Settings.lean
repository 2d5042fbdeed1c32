import FilterPipeline.Formula.Cleaning
import FilterPipeline.Json.Reader
import FilterPipeline.Json.Record

/-!
# Settings

What a user may set for compiling. A settings document may leave out any of it, but null is no value
for any.
-/

namespace FilterPipeline

open Json (fieldOr)

/-- What a user may set. -/
structure Settings where
  /-- How deep the operators of a formula may be nested. -/
  maxParseDepth : Nat
  /-- Fields that every projection keeps. -/
  alwaysProject : List String
  /-- The options of regular expressions. -/
  regexOptions : String
  /-- Whether formulas read before are kept. -/
  useParseCache : Bool

namespace Settings

/-- The settings where nothing is set. -/
def default : Settings := ⟨Formula.defaultLimit, ["objectId"], "i", true⟩

/-- The names of the settings, in order. -/
def fields : List (List String) :=
  [["max_parse_depth"], ["always_project"], ["regex_options"], ["use_parse_cache"]]

/-- A whole number that is not negative. -/
def nat? : Json → Option Nat
  | .int n => if 0 ≤ n then some n.toNat else none
  | _ => none

/-- A list of strings. -/
def strings? (v : Json) : Option (List String) := v.items?.bind fun items ↦ items.mapM Json.string?

/-- The settings that a value means. -/
def ofJson? (v : Json) : Option Settings := do
  match ← v.layer.fields? fields with
  | [depth, project, options, cache] =>
    some {
      maxParseDepth := ← fieldOr default.maxParseDepth nat? depth
      alwaysProject := ← fieldOr default.alwaysProject strings? project
      regexOptions := ← fieldOr default.regexOptions Json.string? options
      useParseCache := ← fieldOr default.useParseCache Json.bool? cache }
  | _ => none

/-- The part of a settings document that is looked at. -/
def shape : Shape := .record (fields.map (·, .all))

/-- The settings that the text of a document means. -/
def ofText? (text : String) : Option Settings := do ofJson? (← Json.ofTextWithin? shape text)

/-- Settings as a value. -/
def toJson (s : Settings) : Json :=
  .obj [("always_project", .arr (s.alwaysProject.map .str)),
    ("max_parse_depth", .int s.maxParseDepth), ("regex_options", .str s.regexOptions),
    ("use_parse_cache", .bool s.useParseCache)]

end Settings
end FilterPipeline
