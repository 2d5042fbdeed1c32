import FilterPipeline.Formula.Display
import FilterPipeline.Proofs.WrittenFormulas

/-!
# Displayed formulas

A formula is displayed with parentheses around every operation, which is one of the texts that may
write it. Main statement: what is displayed is read back as the same formula, within exactly the
limits that its depth allows.
-/

namespace FilterPipeline.Formula

/-- The number leaves from left to right. -/
def numbers : Formula → List Double
  | number x => [x]
  | field _ => []
  | binary _ left right => left.numbers ++ right.numbers
  | call _ arg | negate arg => arg.numbers

/-- Whether the leaves of a formula can be told from what is displayed of them: its fields are
identifiers and its numbers are finite. -/
structure IsDisplayable (t : Formula) : Prop where
  fields : ∀ path ∈ t.fields, isIdentifier path.toList = true
  numbers : ∀ x ∈ t.numbers, x.IsBinary64

namespace IsDisplayable

/-- The operands of a displayable operation are displayable. -/
theorem operands {op : BinaryOp} {l r : Formula} (h : IsDisplayable (.binary op l r)) :
    l.IsDisplayable ∧ r.IsDisplayable := by
  have hfields := h.fields
  have hnumbers := h.numbers
  rw [Formula.fields, List.forall_mem_append] at hfields
  rw [Formula.numbers, List.forall_mem_append] at hnumbers
  exact ⟨⟨hfields.1, hnumbers.1⟩, ⟨hfields.2, hnumbers.2⟩⟩

/-- A formula of displayable leaves is written by what is displayed. -/
theorem written {t : Formula} (h : t.IsDisplayable) : Written 4 t t.display.toList := by
  induction t with
  | number x =>
    obtain ⟨n, hplain, htext, hvalue⟩ := (h.numbers x (List.mem_singleton_self x)).exists_plainText
    rw [display, htext, ← hvalue]
    exact .number hplain
  | field path => exact .path (h.fields path (List.mem_singleton_self path))
  | binary op l r ihl ihr =>
    obtain ⟨hl, hr⟩ := h.operands
    -- Operands in parentheses of their own are admitted by every operator.
    have hadmits : op.Admits 4 4 := by cases op <;> decide
    have hbinary := Written.binary hadmits ((ihl hl).append_spaces 1) ((ihr hr).spaces_append 1)
    have htext : (display (.binary op l r)).toList =
        '(' :: (l.display.toList ++ List.replicate 1 ' ' ++
          op.symbol :: (List.replicate 1 ' ' ++ r.display.toList)) ++ [')'] := by
      simp [display, String.toList_append]
    rw [htext]
    exact .parenthesised hbinary
  | call f arg ih =>
    have harg : arg.IsDisplayable := ⟨h.fields, h.numbers⟩
    have htext : (display (.call f arg)).toList =
        f.name.toList ++ List.replicate 0 ' ' ++ ('(' :: arg.display.toList ++ [')']) := by
      simp [display, String.toList_append]
    rw [htext]
    exact .call f 0 (ih harg)
  | negate arg ih =>
    have harg : arg.IsDisplayable := ⟨h.fields, h.numbers⟩
    have htext : (display (.negate arg)).toList =
        '-' :: List.replicate 0 ' ' ++ ('(' :: arg.display.toList ++ [')']) := by
      simp [display, String.toList_append]
    rw [htext]
    exact .negate 0 (ih harg)

end IsDisplayable

/-- What is displayed of a formula is read back as the formula, within any limit that its depth
allows. -/
theorem parseWithin_display {t : Formula} {limit : Nat} (h : t.IsDisplayable)
    (hdepth : t.depth ≤ limit + 1) : parseWithin limit t.display = t := by
  rw [parseWithin]
  exact h.written.ofPlain_cleanWithin (h.written.expandFractions_eq limit) hdepth

/-- A formula with negative numbers on both sides of operators, a negation, a call, and fields that
are spelled like a function, like the mantissa of a number and like a word of the notation. -/
def signed : Formula :=
  .binary .power (.number (.finite true 5 (-1)))
    (.binary .subtract (.negate (.binary .divide (.field "sin") (.field "x2e")))
      (.binary .multiply (.call .ln (.field "frac"))
        (.number (.finite true 3602879701896397 (-55)))))

/-- It is displayed with signs before numbers and parentheses, and is read back within exactly the
limit that its depth allows. -/
theorem parseWithin_display_signed :
    signed.display = "(-2.5 ^ (-((sin / x2e)) - (ln(frac) * -0.1)))" ∧ signed.depth = 5 ∧
      signed.IsDisplayable ∧ parseWithin 4 signed.display = signed := by
  have hdisplayable : signed.IsDisplayable := ⟨by decide, by decide⟩
  exact ⟨by decide +kernel, by decide, hdisplayable, parseWithin_display hdisplayable (by decide)⟩

end FilterPipeline.Formula
