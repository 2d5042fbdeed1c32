import FilterPipeline.Proofs.SavedFilters
import FilterPipeline.Proofs.TextScalars

/-!
# Saving and reloading filters

A filter that has been loaded is the same after it has been saved and loaded again. In a text there
is one exception: a double is written as the shortest decimal that is nearest to it, but the reader
rounds step by step and may miss it.
-/

namespace FilterPipeline

/-- Loaded blocks are loaded again from the value that is written for them, and from its text if it
is not nested too deeply and each double in it is read back from its own text. -/
theorem Block.saved_reloads {v : Json} {bs : List Block} (hkeys : v.distinctKeys = true)
    (h : Block.rootsOfJson? v = some bs) :
    Block.rootsOfJson? (Block.rootsToJson bs) = some bs ∧
      ∀ text, Json.ofText? text = some v →
        (Block.rootsToJson bs).nesting ≤ Json.maxNesting →
        (∀ x, .double x ∈ (Block.rootsToJson bs).scalars →
          Json.ofText? (Json.double x).compact = some (.double x)) →
        Block.rootsOfText? (Block.rootsToJson bs).compact = some bs := by
  -- The numbers of the blocks are those of the value, so the integers fit if the value was read.
  have hloaded := Block.isLoaded_of_rootsOfJson? (P := (· ∈ v.scalars)) hkeys (fun s hs _ ↦ hs) h
  have hvalue := Block.rootsOfJson?_rootsToJson hloaded
  refine ⟨hvalue, fun text htext hnesting hdoubles ↦ ?_⟩
  have hints : ∀ n, .int n ∈ (Block.rootsToJson bs).scalars → Json.FitsInt64 n := fun n hn ↦
    Json.fitsInt64_of_ofText? htext (Block.allNumbers_rootsToJson hloaded _ hn rfl)
  rw [Block.rootsOfText?, Json.ofText?_compact_of_doubles hnesting hints hdoubles]
  exact hvalue

/-- A filter that is spelled loosely: a root that is no list, other names of fields, operators and
logics, a child in a list and one with a number for its kind, a missing operand, and literals that
look almost like a list condition and a block. -/
def looseValue : Json :=
  .obj [("logic", .str "OR"), ("name", .str "bright"), ("children", .arr [
    .obj [("category", .str "condition"), ("field", .str "mag"), ("operator", .str "greater than"),
      ("value", .double (.finite false 3 (-1)))],
    .arr [.int 1, .str "c", .str "jd", .str "less than",
      .obj [("type", .str "array"), ("operator", .str "min")]],
    .obj [("category", .int 1), ("id", .str "d")],
    .arr [.str "condition", .str "e", .str "f", .str "=", .obj [("children", .arr [.int 7])]]])]

/-- The blocks that the loosely spelled filter means. -/
def looseBlocks : List Block :=
  [⟨"", .or, [
    .condition ⟨"", some "mag", some (.compare .gt),
      .literal (.double (.finite false 3 (-1))), none⟩,
    .condition ⟨"c", some "jd", some (.compare .lt),
      .literal (.obj [("operator", .str "min"), ("type", .str "array")]), none⟩,
    .condition ⟨"d", none, none, .literal .null, none⟩,
    .condition ⟨"e", some "f", some (.compare .eq),
      .literal (.obj [("children", .arr [.int 7])]), none⟩], some "bright", true⟩]

/-- A filter whose members stand in any order, with some left out and some of no use, is loaded
again from what it is saved as. -/
theorem Block.saved_reloads_loose :
    Json.ofText? looseValue.compact = some looseValue ∧
      Block.rootsOfJson? looseValue = some looseBlocks ∧
      Block.rootsOfText? (Block.rootsToJson looseBlocks).compact = some looseBlocks := by
  have hdouble : Json.ofText? (Json.double (.finite false 3 (-1))).compact =
      some (.double (.finite false 3 (-1))) := by
    have hcompact : (Json.double (.finite false 3 (-1))).compact = "1.5" := by decide +kernel
    rw [hcompact]
    rfl
  have htext : Json.ofText? looseValue.compact = some looseValue := by
    refine Json.ofText?_compact_of_doubles (by decide +kernel) (fun n hn ↦ ?_) fun x hx ↦ ?_
    · have hvalue : n = 1 ∨ n = 7 := by
        simpa [looseValue, Json.scalars, Json.fold, Json.foldMembers, Json.foldItems] using hn
      rcases hvalue with rfl | rfl <;> exact ⟨by decide, by decide⟩
    · have hvalue : x = .finite false 3 (-1) := by
        simpa [looseValue, Json.scalars, Json.fold, Json.foldMembers, Json.foldItems] using hx
      rw [hvalue, hdouble]
  have hread : Block.rootsOfJson? looseValue = some looseBlocks := by rfl
  have hreload := (Block.saved_reloads (v := looseValue) (by decide +kernel) hread).2 _ htext
    (by decide +kernel) fun x hx ↦ by
      have hvalue : x = .finite false 3 (-1) := by
        have hscalars : (Block.rootsToJson looseBlocks).scalars =
            [.str "condition", .str "mag", .str "", .str "$gt", .double (.finite false 3 (-1)),
              .str "condition", .str "jd", .str "c", .str "$lt", .str "min", .str "array",
              .str "condition", .str "d", .null, .str "condition", .str "f", .str "e", .str "$eq",
              .int 7, .str "bright", .str "", .bool true, .str "Or"] := rfl
        simpa [hscalars] using hx
      rw [hvalue, hdouble]
  exact ⟨htext, hread, hreload⟩

/-! ## Doubles that are missed -/

/-- A block with a number in its only condition. -/
def numberBlock (x : Double) : Block :=
  ⟨"", .and, [.condition ⟨"", none, none, .literal (.double x), none⟩], none, true⟩

/-- A number is loaded as what its text is read as. -/
theorem rootsOfText?_numberBlock {x y : Double}
    (h : Json.scalar? (x.write .json).toList = some (.double y)) :
    Block.rootsOfText? (Block.rootsToJson [numberBlock x]).compact = some [numberBlock y] := by
  have hscalars : (Block.rootsToJson [numberBlock x]).scalars =
      [.str "condition", .str "", .double x, .str "", .bool true, .str "And"] := rfl
  have hnesting : (Block.rootsToJson [numberBlock x]).nesting = 4 := rfl
  have hread := Json.ofText?_compact (g := fun _ ↦ .double y) (by rw [hnesting]; decide)
    (fun _ _ ↦ rfl) fun s hs hnumber ↦ by
      have hs : s = .double x := by
        rw [hscalars] at hs
        simp only [List.mem_cons, List.not_mem_nil, or_false] at hs
        rcases hs with rfl | rfl | rfl | rfl | rfl | rfl <;> first | rfl | cases hnumber
      rw [hs]
      exact Json.Lexer.spells_scalar h (Json.isScalarChar_write x)
  rw [Block.rootsOfText?, hread]
  rfl

/-- The double that `5e32` is nearest to is read as the next one, and that one as the first: a
filter that has been loaded with either of them is loaded again with the other. -/
theorem Block.saved_reloads_otherwise :
    let x := Double.finite false 1734723475976807 58
    let y := Double.finite false 6938893903907229 56
    Block.rootsOfText? (Block.rootsToJson [numberBlock x]).compact = some [numberBlock y] ∧
      Block.rootsOfText? (Block.rootsToJson [numberBlock y]).compact = some [numberBlock x] ∧
      [numberBlock x] ≠ [numberBlock y] := by
  have hx : (Double.finite false 1734723475976807 58).write .json = "5e+32" := by decide +kernel
  have hy : (Double.finite false 6938893903907229 56).write .json = "5.0000000000000004e+32" := by
    decide +kernel
  refine ⟨rootsOfText?_numberBlock ?_, rootsOfText?_numberBlock ?_, fun heq ↦ by cases heq⟩
  · rw [hx]
    exact Json.scalar?_of_toDouble? (n := ⟨none, ['5'], none, some (some '+', ['3', '2'])⟩)
      rfl rfl rfl (by decide +kernel)
  · rw [hy]
    exact Json.scalar?_of_toDouble? (n := ⟨none, ['5'],
      some ['0', '0', '0', '0', '0', '0', '0', '0', '0', '0', '0', '0', '0', '0', '0', '4'],
      some (some '+', ['3', '2'])⟩) rfl rfl rfl (by decide +kernel)

end FilterPipeline
