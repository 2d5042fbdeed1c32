import FilterPipeline.Formula.Parser
import Std.Data.HashMap

/-!
# A store of formulas read before

Reading the same text again is saved by keeping the formula. The store never grows past its
capacity: it is emptied before a formula is added to a full one.
-/

namespace FilterPipeline

/-- Formulas by the text and the limit that they were read with. -/
structure FormulaCache where
  entries : Std.HashMap (String × Nat) Formula

namespace FormulaCache

/-- The greatest number of formulas in a store. -/
def capacity : Nat := 4096

/-- The store without formulas. -/
def empty : FormulaCache := ⟨∅⟩

/-- The number of formulas in a store. -/
def size (cache : FormulaCache) : Nat := cache.entries.size

/-- The formula kept for a text and a limit. -/
def get? (cache : FormulaCache) (text : String) (limit : Nat) : Option Formula :=
  cache.entries[(text, limit)]?

/-- Keeps a formula. -/
def insert (cache : FormulaCache) (text : String) (limit : Nat) (t : Formula) : FormulaCache :=
  let kept := if capacity ≤ cache.size then empty else cache
  ⟨kept.entries.insert (text, limit) t⟩

/-- The formula of a text, and the store afterwards. -/
def parse (cache : FormulaCache) (text : String) (limit : Nat) : Formula × FormulaCache :=
  match cache.get? text limit with
  | some t => (t, cache)
  | none =>
    let t := Formula.parseWithin limit text
    (t, cache.insert text limit t)

end FormulaCache
end FilterPipeline
