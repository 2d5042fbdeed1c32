import FilterPipeline.Proofs.CorrespondingFilters
import FilterPipeline.Proofs.PipelineReferences

/-!
# Literals that expressions read alike

Two literals are alike for a string when no operand that is made from them tells whether the string
is referred to. Main statements: equal literals are alike, whatever the signs of their zeros, and so
are texts that are no such reference; what is made from alike literals refers to the string on both
sides or on neither.
-/

namespace FilterPipeline

open Fragment

section Options

variable {α β : Type} {R : α → α → Prop} {S : β → β → Prop} {a a' b b' : Option α}

/-- Of two related options both have a value or none has. -/
theorem rel_cases (h : Option.Rel R a a') :
    a = none ∧ a' = none ∨ ∃ v w, a = some v ∧ a' = some w ∧ R v w := by
  cases h with
  | none => exact Or.inl ⟨rfl, rfl⟩
  | some h => exact Or.inr ⟨_, _, rfl, rfl, h⟩

/-- Options are related to themselves where values are. -/
theorem rel_refl (hR : ∀ v, R v v) : Option.Rel R a a := by
  cases a with
  | none => exact .none
  | some v => exact .some (hR v)

/-- First choices that are related, and second ones, make related choices. -/
theorem rel_or (ha : Option.Rel R a a') (hb : Option.Rel R b b') :
    Option.Rel R (a.or b) (a'.or b') := by
  cases ha with
  | none => exact hb
  | some h => exact .some h

/-- Related values that are kept alike stay related. -/
theorem rel_filter {p : α → Bool} (ha : Option.Rel R a a') (hp : ∀ v w, R v w → p v = p w) :
    Option.Rel R (a.filter p) (a'.filter p) := by
  cases ha with
  | none => exact .none
  | @some v w h =>
    simp only [Option.filter_some, hp v w h]
    split
    · exact .some h
    · exact .none

/-- Related values have related images. -/
theorem rel_map {f g : α → β} (ha : Option.Rel R a a') (hf : ∀ v w, R v w → S (f v) (g w)) :
    Option.Rel S (a.map f) (a'.map g) := by
  cases ha with
  | none => exact .none
  | @some v w h => exact .some (hf v w h)

/-- Computations that go on alike from related values have related results. -/
theorem rel_bind {f g : α → Option β} (ha : Option.Rel R a a')
    (hf : ∀ v w, R v w → Option.Rel S (f v) (g w)) : Option.Rel S (a.bind f) (a'.bind g) := by
  cases ha with
  | none => exact .none
  | @some v w h => exact hf v w h

/-- Related options are related lists. -/
theorem forall₂_toList (ha : Option.Rel R a a') : List.Forall₂ R a.toList a'.toList := by
  cases ha with
  | none => exact .nil
  | some h => exact .cons h .nil

end Options

namespace Json

/-- Both expressions refer to a string or neither does. -/
def ReadAlike (r : String) (e e' : Json) : Prop := r ∈ e.references ↔ r ∈ e'.references

variable {r : String}

/-- Expressions that refer to the same read alike. -/
theorem ReadAlike.of_eq {e e' : Json} (h : e.references = e'.references) : ReadAlike r e e' := by
  rw [ReadAlike, h]

/-- The operands of one operator that read alike make expressions that do. -/
theorem ReadAlike.single {key : String} {e e' : Json} (h : ReadAlike r e e') :
    ReadAlike r (.single key e) (.single key e') := by
  rw [ReadAlike, mem_references_single, mem_references_single]
  exact and_congr_right fun _ ↦ h

/-- Lists whose items read alike do. -/
theorem ReadAlike.arr {items items' : List Json}
    (h : List.Forall₂ (ReadAlike r) items items') : ReadAlike r (.arr items) (.arr items') := by
  rw [ReadAlike, mem_references_arr, mem_references_arr]
  induction h with
  | nil => rfl
  | cons he _ ih =>
    rw [List.exists_mem_cons_iff, List.exists_mem_cons_iff]
    exact or_congr he ih

/-- Operators with two operands that read alike do. -/
theorem ReadAlike.pair {key : String} {a a' b b' : Json} (ha : ReadAlike r a a')
    (hb : ReadAlike r b b') :
    ReadAlike r (.single key (.arr [a, b])) (.single key (.arr [a', b'])) :=
  (ReadAlike.arr (.cons ha (.cons hb .nil))).single

/-- A combination of expressions that read alike reads alike. -/
theorem ReadAlike.combine {logic : Logic} {parts parts' : List Json}
    (h : List.Forall₂ (ReadAlike r) parts parts') :
    Option.Rel (ReadAlike r) (logic.combine parts) (logic.combine parts') := by
  cases h with
  | nil => exact .none
  | cons he hrest =>
    cases hrest with
    | nil => exact .some he
    | cons he' hrest => exact .some (ReadAlike.arr (.cons he (.cons he' hrest))).single

/-- A negation refers to what is negated. -/
@[simp] theorem mem_references_negateExpr {e : Json} :
    r ∈ (negateExpr e).references ↔ r ∈ e.references := by
  simp [negateExpr]

/-- Whether an expression is negated makes no difference to what it refers to. -/
theorem ReadAlike.negated {e e' : Json} (h : ReadAlike r e e') (b b' : Bool) :
    ReadAlike r (if b then negateExpr e else e) (if b' then negateExpr e' else e') := by
  have hnegate : ∀ (b : Bool) (e : Json),
      r ∈ (if b then negateExpr e else e).references ↔ r ∈ e.references := by
    intro b e
    split <;> simp
  rw [ReadAlike, hnegate, hnegate]
  exact h

/-- The size of an array refers to what yields the array. -/
@[simp] theorem mem_references_sizeOfArray {e : Json} :
    r ∈ (sizeOfArray e).references ↔ r ∈ e.references := by
  simp [sizeOfArray, arrayInput]

/-- The text of a value begins with some character other than a dollar sign. -/
def HasPlainText (v : Json) : Prop := ∃ c cs, v.regexText.toList = c :: cs ∧ c ≠ '$'

/-- Two literals are alike for a string: they are the same, or equal with plain texts, or two texts
that are no such reference, for an operator that takes texts. -/
inductive Alike (r : String) : Bool → Json → Json → Prop
  | refl {free : Bool} (v : Json) : Alike r free v v
  | same {free : Bool} {v w : Json} : v.isString = false → w.isString = false →
      v.HasPlainText → w.HasPlainText → v.same w = true → Alike r free v w
  | texts {s t : String} : s ≠ "" → t ≠ "" → r ∉ (str s).references → r ∉ (str t).references →
      Alike r true (.str s) (.str t)

mutual

private theorem references_of_same : (v w : Json) → v.same w = true → v.references = w.references
  | .null, w, h | .bool _, w, h | .int _, w, h | .double _, w, h => by
    cases w <;> first | rfl | simp [same] at h
  | .str s, w, h => by
    cases w with
    | str t =>
      have heq : s = t := by simpa [same] using h
      rw [heq]
    | null | bool _ | int _ | double _ | arr _ | obj _ => simp [same] at h
  | .arr items, w, h => by
    cases w with
    | arr items' => exact references_of_sameItems items items' (by simpa [same] using h)
    | null | bool _ | int _ | double _ | str _ | obj _ => simp [same] at h
  | .obj members, w, h => by
    cases w with
    | obj members' => exact references_of_sameMembers members members' (by simpa [same] using h)
    | null | bool _ | int _ | double _ | str _ | arr _ => simp [same] at h

private theorem references_of_sameItems :
    (items items' : List Json) → sameItems items items' = true → (arr items).references =
    (arr items').references
  | [], [], _ => rfl
  | [], _ :: _, h | _ :: _, [], h => by simp [sameItems] at h
  | v :: rest, w :: rest', h => by
    obtain ⟨hv, hrest⟩ := Bool.and_eq_true_iff.mp h
    exact congrArg₂ (· ++ ·) (references_of_same v w hv)
      (references_of_sameItems rest rest' hrest)

private theorem references_of_sameMembers : (members members' : List (String × Json)) →
    sameMembers members members' = true → (obj members).references = (obj members').references
  | [], [], _ => rfl
  | [], _ :: _, h | _ :: _, [], h => by simp [sameMembers] at h
  | (key, v) :: rest, (key', w) :: rest', h => by
    simp only [sameMembers, Bool.and_eq_true, beq_iff_eq] at h
    obtain ⟨⟨rfl, hv⟩, hrest⟩ := h
    exact congrArg₂ (· ++ ·)
      (congrArg (fun found ↦ if key = "$literal" then [] else found) (references_of_same v w hv))
      (references_of_sameMembers rest rest' hrest)

end

private theorem hasPlainText_zero (negative : Bool) (q : Int) :
    (double (.finite negative 0 q)).HasPlainText := by
  have htext : (double (.finite negative 0 q)).regexText =
      (if negative then "-" else "") ++ ("0" ++ ".0") := by
    simp [regexText, compact, writeScalar, Double.write, Double.writeMagnitude,
      Double.Format.json]
  cases negative
  · exact ⟨'0', ['.', '0'], by rw [htext]; rfl, by decide⟩
  · exact ⟨'-', ['0', '.', '0'], by rw [htext]; rfl, by decide⟩

private theorem hasPlainText_arr (items : List Json) : (arr items).HasPlainText :=
  ⟨'[', _, by simp [regexText, compact]; rfl, by decide⟩

private theorem hasPlainText_obj (members : Members) : (obj members).HasPlainText :=
  ⟨'\x7b', _, by simp [regexText, compact]; rfl, by decide⟩

/-- Equal values are alike. -/
theorem Alike.of_same {free : Bool} {v w : Json} (h : v.same w = true) : Alike r free v w := by
  cases v with
  | null =>
    cases w with
    | null => exact .refl _
    | bool _ | int _ | double _ | str _ | arr _ | obj _ => simp [Json.same] at h
  | bool b =>
    cases w with
    | bool b' =>
      rw [show b = b' by simpa [Json.same] using h]
      exact .refl _
    | null | int _ | double _ | str _ | arr _ | obj _ => simp [Json.same] at h
  | int n =>
    cases w with
    | int n' =>
      rw [show n = n' by simpa [Json.same] using h]
      exact .refl _
    | null | bool _ | double _ | str _ | arr _ | obj _ => simp [Json.same] at h
  | str s =>
    cases w with
    | str t =>
      rw [show s = t by simpa [Json.same] using h]
      exact .refl _
    | null | bool _ | int _ | double _ | arr _ | obj _ => simp [Json.same] at h
  | arr items =>
    cases w with
    | arr items' => exact .same rfl rfl (hasPlainText_arr _) (hasPlainText_arr _) h
    | null | bool _ | int _ | double _ | str _ | obj _ => simp [Json.same] at h
  | obj members =>
    cases w with
    | obj members' => exact .same rfl rfl (hasPlainText_obj _) (hasPlainText_obj _) h
    | null | bool _ | int _ | double _ | str _ | arr _ => simp [Json.same] at h
  | double x =>
    cases w with
    | double y =>
      have hxy : x.same y = true := by simpa [Json.same] using h
      cases x with
      | nan => cases y <;> simp [Double.same] at hxy
      | infinite a =>
        cases y with
        | infinite b =>
          rw [show a = b by simpa [Double.same] using hxy]
          exact .refl _
        | finite _ _ _ | nan => simp [Double.same] at hxy
      | finite a m q =>
        cases y with
        | finite b n q' =>
          simp only [Double.same, Bool.and_eq_true, Bool.or_eq_true, beq_iff_eq] at hxy
          obtain ⟨⟨rfl, rfl⟩, rfl | rfl⟩ := hxy
          · exact .refl _
          · exact .same rfl rfl (hasPlainText_zero a q) (hasPlainText_zero b q) h
        | infinite _ | nan => simp [Double.same] at hxy
    | null | bool _ | int _ | str _ | arr _ | obj _ => simp [Json.same] at h

/-- A text that does not begin with a dollar sign is no reference. -/
theorem references_str_of_beginsWith {s : String} (h : beginsWith "$" s = false) :
    (str s).references = [] := by
  rw [List.eq_nil_iff_forall_not_mem]
  simp [h]

/-- A value other than a text is its own operand. -/
theorem coerceFor_of_not_string {v : Json} (h : v.isString = false) (type : Option FieldType) :
    v.coerceFor type = v := by
  cases v with
  | str s => cases h
  | null | bool _ | int _ | double _ | arr _ | obj _ =>
    cases type with
    | none => rfl
    | some t => cases t <;> rfl

private theorem notMem_references_coerceFor {s : String} (h : r ∉ (str s).references)
    (type : Option FieldType) : r ∉ ((str s).coerceFor type).references := by
  have hnumber : r ∉ (str s).coerceNumber.references := by
    rw [coerceNumber]
    cases finiteNumber? s with
    | none => exact h
    | some x => simp
  unfold coerceFor
  split
  · exact h
  · split
    · simp
    · simp
    · simp_all
  · exact hnumber

private theorem mem_references_wrapList {v : Json} :
    r ∈ v.wrapList.references ↔ r ∈ v.references := by
  cases v with
  | arr items => rfl
  | null | bool _ | int _ | double _ | str _ | obj _ => simp [wrapList]

namespace Alike

variable {free : Bool} {v w : Json}

/-- Alike literals make alike operands. -/
theorem coerceFor (h : Alike r free v w) (type : Option FieldType) :
    ReadAlike r (v.coerceFor type) (w.coerceFor type) := by
  cases h with
  | refl => exact Iff.rfl
  | same hv hw _ _ h =>
    rw [coerceFor_of_not_string hv, coerceFor_of_not_string hw]
    exact .of_eq (references_of_same v w h)
  | texts _ _ hs ht =>
    exact iff_of_false (notMem_references_coerceFor hs type) (notMem_references_coerceFor ht type)

/-- Alike literals read alike. -/
theorem readAlike (h : Alike r free v w) : ReadAlike r v w := h.coerceFor (some .string)

/-- Alike literals make alike numbers. -/
theorem coerceNumber (h : Alike r free v w) : ReadAlike r v.coerceNumber w.coerceNumber :=
  h.coerceFor none

/-- Alike literals make alike lists. -/
theorem wrapList (h : Alike r free v w) : ReadAlike r v.wrapList w.wrapList := by
  rw [ReadAlike, mem_references_wrapList, mem_references_wrapList]
  exact h.readAlike

/-- Both of two alike literals are null or neither is. -/
theorem isNull_eq (h : Alike r free v w) : v.isNull = w.isNull := by
  cases h with
  | refl | texts => rfl
  | same _ _ _ _ h => cases v <;> cases w <;> first | rfl | simp [Json.same] at h

/-- Something can be compared with both of two alike literals or with neither. -/
theorem isComparable_eq (h : Alike r free v w) : v.isComparable = w.isComparable := by
  have hother : ∀ u : Json, u.isString = false → u.isEmptyString = false := by
    intro u hu
    cases u <;> first | rfl | cases hu
  have htext : ∀ u : String, u ≠ "" → (str u).isEmptyString = false :=
    fun u hu ↦ Bool.eq_false_iff.mpr fun h ↦ hu (String.isEmpty_iff.mp h)
  rw [isComparable, isComparable, h.isNull_eq]
  cases h with
  | refl => rfl
  | texts hs ht => rw [htext _ hs, htext _ ht]
  | same hv hw _ _ h => rw [hother v hv, hother w hw]

/-- Alike literals make alike patterns. -/
theorem regexText (h : Alike r false v w) : ReadAlike r (.str v.regexText) (.str w.regexText) := by
  cases h with
  | refl => exact Iff.rfl
  | same _ _ hv hw _ =>
    obtain ⟨c, cs, hs, hc⟩ := hv
    obtain ⟨c', cs', hs', hc'⟩ := hw
    exact .of_eq (by
      rw [references_str_of_beginsWith (beginsWith_dollar_of_head hs hc),
        references_str_of_beginsWith (beginsWith_dollar_of_head hs' hc')])

/-- Alike literals make alike patterns for texts, wherever those are to be found. -/
theorem literalPattern (h : Alike r false v w) (atStart atEnd : Bool) :
    ReadAlike r (.str (v.literalPattern atStart atEnd))
      (.str (w.literalPattern atStart atEnd)) := by
  cases h with
  | refl => exact Iff.rfl
  | same _ _ hv hw _ =>
    have hnone : ∀ u : Json, u.HasPlainText →
        (str (u.literalPattern atStart atEnd)).references = [] := by
      rintro u ⟨c, cs, hs, -⟩
      refine references_str_of_beginsWith (beginsWith_dollar_literalPattern u fun hempty ↦ ?_)
      rw [hempty] at hs
      cases hs
    exact .of_eq (by rw [hnone v hv, hnone w hw])

/-- Alike literals have alike numbers. -/
theorem number? (h : Alike r false v w) :
    Option.Rel (fun x y ↦ x.isNegative = y.isNegative ∧ x.isNonpositive = y.isNonpositive)
      v.number? w.number? := by
  cases h with
  | refl =>
    cases v.number? with
    | none => exact .none
    | some x => exact .some ⟨rfl, rfl⟩
  | same hv hw _ _ h =>
    cases v with
    | str s => cases hv
    | double x =>
      cases w with
      | double y =>
        have hxy : x.same y = true := by simpa [Json.same] using h
        refine .some ?_
        cases x <;> cases y <;> simp [Double.same] at hxy <;>
          simp_all [Double.isNegative, Double.isNonpositive]
        rcases hxy.2 with rfl | h <;> simp_all
      | null | bool _ | int _ | str _ | arr _ | obj _ => simp [Json.same] at h
    | int n =>
      cases w with
      | int n' =>
        rw [show n = n' by simpa [Json.same] using h]
        exact .some ⟨rfl, rfl⟩
      | null | bool _ | double _ | str _ | arr _ | obj _ => simp [Json.same] at h
    | null | bool _ | arr _ | obj _ =>
      cases w <;> first | exact .none | simp [Json.same] at h

/-- Alike literals have alike ends as ranges. -/
theorem rangeBounds? (h : Alike r false v w) :
    Option.Rel (fun p q ↦ ReadAlike r p.1 q.1 ∧ ReadAlike r p.2 q.2)
      v.rangeBounds? w.rangeBounds? := by
  cases h with
  | refl =>
    cases v.rangeBounds? with
    | none => exact .none
    | some p => exact .some ⟨Iff.rfl, Iff.rfl⟩
  | same hv hw _ _ h =>
    cases v with
    | arr items =>
      cases w with
      | arr items' =>
        match items, items' with
        | [low, high], [low', high'] =>
          simp only [Json.same, sameItems, Bool.and_eq_true, Bool.and_true] at h
          have hlow : Alike r true low low' := .of_same h.1
          have hhigh : Alike r true high high' := .of_same h.2
          exact .some ⟨hlow.coerceNumber, hhigh.coerceNumber⟩
        | [], [] | [_], [_] | _ :: _ :: _ :: _, _ :: _ :: _ :: _ => exact .none
        | [], _ :: _ | [_], [] | [_], _ :: _ :: _ | [_, _], [] | [_, _], [_]
        | [_, _], _ :: _ :: _ :: _ | _ :: _ :: _ :: _, [] | _ :: _ :: _ :: _, [_]
        | _ :: _ :: _ :: _, [_, _] => simp [Json.same, sameItems] at h
      | null | bool _ | int _ | double _ | str _ | obj _ => simp [Json.same] at h
    | null | bool _ | int _ | double _ | str _ | obj _ =>
      cases w <;> first | exact .none | simp [Json.same] at h

end Alike

end Json
end FilterPipeline
