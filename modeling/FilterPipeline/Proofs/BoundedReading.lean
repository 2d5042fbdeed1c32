import FilterPipeline.Proofs.PlainCleaning
import FilterPipeline.Proofs.PlainReading

/-!
# Bounded reading

Every level of reading hands on parts of its text that are shorter and do not overlap. Main
statements: the fields of a formula stand in its text one behind the other, and the limit bounds the
depth of a formula while the text bounds its size, whatever brackets, signs, calls, bars and
fractions there are.
-/

namespace FilterPipeline.Formula

open Text

/-! ### What is taken off at the ends -/

/-- Blanks at the ends are all that trimming drops. -/
theorem trim_sublist (cs : List Char) : (trim cs).Sublist cs := by
  obtain ⟨before, after, hcs, -, -⟩ := exists_append_trim cs
  conv => rhs; rw [hcs]
  exact (List.sublist_append_right before _).trans (List.sublist_append_left _ after)

/-- Taking off parentheses leaves a part of the text. -/
theorem stripParentheses_sublist (cs : List Char) : (stripParentheses cs).Sublist cs := by
  rw [stripParentheses]
  split
  · exact List.Sublist.refl cs
  · next opening closing _ =>
    have hinside : ((cs.take closing).drop (opening + 1)).Sublist cs :=
      (List.drop_sublist _ _).trans (List.take_sublist _ _)
    exact (trim_sublist _).trans hinside

/-! ### One level of reading -/

/-- What one level of reading makes of a trimmed text without parentheses around it, when its parts
are read by `read`. -/
inductive LevelReads (read : List Char → Formula) : List Char → Formula → Prop
  | call (name : List Char) {f : MathFunction} {arg : List Char} (hname : name ≠ [])
      (hfilled : allBlank arg = false) :
      LevelReads read (name ++ '(' :: (arg ++ [')'])) (.call f (read arg))
  | binary (op : BinaryOp) {left right : List Char} (hleft : allBlank left = false)
      (hright : allBlank right = false) :
      LevelReads read (left ++ op.symbol :: right) (.binary op (read left) (read right))
  | number {cs : List Char} (x : Double) : LevelReads read cs (.number x)
  | field (cs : List Char) : LevelReads read cs (.field (String.ofList cs))
  | minus {cs : List Char} (hfilled : allBlank cs = false) :
      LevelReads read ('-' :: cs) (.negate (read cs))
  | plus {cs : List Char} (hfilled : allBlank cs = false) : LevelReads read ('+' :: cs) (read cs)

/-- Every level of reading takes its text apart in one of these ways. -/
theorem levelReads_ofPlain (levels : Nat) (cs : List Char) :
    LevelReads (ofPlain levels) (stripParentheses (trim cs)) (ofPlain (levels + 1) cs) := by
  rw [ofPlain]
  generalize stripParentheses (trim cs) = cs
  split
  · next f arg hcall =>
    obtain ⟨name, -, hname, rfl, -, hfilled⟩ := splitCall?_eq_some_iff.mp hcall
    refine .call name ?_ hfilled
    rintro rfl
    exact trim_ne_nil_of_ofName? hname rfl
  · split
    · next s hmain =>
      obtain ⟨hplace, -⟩ := mainOperator?_eq_some_iff.mp hmain
      rw [← hplace.text]
      exact .binary s.op hplace.left hplace.right
    · split
      · exact .number _
      · split
        · exact .field cs
        · split
          · next rest _ =>
            split
            · exact .field _
            · next hfilled => exact .minus (Bool.eq_false_iff.mpr hfilled)
          · next rest _ =>
            split
            · exact .field _
            · next hfilled => exact .plus (Bool.eq_false_iff.mpr hfilled)
          · exact .field cs

/-! ### Fields in order -/

/-- The fields of what is read stand in the text, one behind the other. -/
theorem flatMap_fields_sublist (levels : Nat) (cs : List Char) :
    ((ofPlain levels cs).fields.flatMap String.toList).Sublist cs := by
  have hfield : ∀ cs : List Char,
      ((Formula.field (String.ofList cs)).fields.flatMap String.toList).Sublist cs := by
    intro cs
    simp [fields]
  induction levels generalizing cs with
  | zero => exact (hfield (trim cs)).trans (trim_sublist cs)
  | succ levels ih =>
    refine List.Sublist.trans ?_ ((stripParentheses_sublist _).trans (trim_sublist cs))
    generalize stripParentheses (trim cs) = text, ofPlain (levels + 1) cs = t,
      levelReads_ofPlain levels cs = hread
    cases hread with
    | @call name f arg hname hfilled =>
      have henclosed : arg.Sublist ('(' :: (arg ++ [')'])) :=
        (List.sublist_append_left arg _).trans (List.sublist_cons_self _ _)
      exact (ih arg).trans (henclosed.trans (List.sublist_append_right name _))
    | @binary op left right hleft hright =>
      rw [fields, List.flatMap_append]
      exact (ih left).append ((ih right).trans (List.sublist_cons_self _ _))
    | number x => exact List.nil_sublist _
    | field => exact hfield text
    | @minus rest hfilled => exact (ih rest).trans (List.sublist_cons_self _ _)
    | @plus rest hfilled => exact (ih rest).trans (List.sublist_cons_self _ _)

/-! ### Depth and size -/

/-- The number of nodes. -/
def size : Formula → Nat
  | number _ | field _ => 1
  | binary _ left right => 1 + left.size + right.size
  | call _ arg | negate arg => 1 + arg.size

/-- What is read within some levels has one level more at most: the text that is left below them. -/
theorem depth_ofPlain_le (levels : Nat) (cs : List Char) :
    (ofPlain levels cs).depth ≤ levels + 1 := by
  induction levels generalizing cs with
  | zero => exact Nat.le_refl 1
  | succ levels ih =>
    generalize stripParentheses (trim cs) = text, ofPlain (levels + 1) cs = t,
      levelReads_ofPlain levels cs = hread
    cases hread with
    | @call name f arg hname hfilled =>
      have harg := ih arg
      rw [depth]
      omega
    | @binary op left right hleft hright =>
      have hl := ih left
      have hr := ih right
      rw [depth]
      omega
    | number x | field =>
      rw [depth]
      omega
    | @minus rest hfilled =>
      have hrest := ih rest
      rw [depth]
      omega
    | @plus rest hfilled => exact Nat.le_succ_of_le (ih rest)

private theorem length_pos_of_not_allBlank {cs : List Char} (h : allBlank cs = false) :
    0 < cs.length := by
  cases cs with
  | nil => cases h
  | cons c cs => exact Nat.succ_pos _

/-- What is read has no more nodes than its text has characters: each level takes a character away,
and its parts do not overlap. -/
theorem size_ofPlain_le (levels : Nat) (cs : List Char) :
    (ofPlain levels cs).size ≤ max 1 cs.length := by
  induction levels generalizing cs with
  | zero => exact Nat.le_max_left 1 _
  | succ levels ih =>
    have hlength : (stripParentheses (trim cs)).length ≤ cs.length :=
      ((stripParentheses_sublist _).trans (trim_sublist cs)).length_le
    suffices hsize : (ofPlain (levels + 1) cs).size ≤
        max 1 (stripParentheses (trim cs)).length by omega
    generalize stripParentheses (trim cs) = text, ofPlain (levels + 1) cs = t,
      levelReads_ofPlain levels cs = hread
    cases hread with
    | @call name f arg hname hfilled =>
      have harg := ih arg
      have hpos := length_pos_of_not_allBlank hfilled
      rw [size, List.length_append, List.length_cons, List.length_append]
      omega
    | @binary op left right hleft hright =>
      have hl := ih left
      have hr := ih right
      have hlpos := length_pos_of_not_allBlank hleft
      have hrpos := length_pos_of_not_allBlank hright
      rw [size, List.length_append, List.length_cons]
      omega
    | number x | field => exact Nat.le_max_left 1 _
    | @minus rest hfilled =>
      have hrest := ih rest
      have hpos := length_pos_of_not_allBlank hfilled
      rw [size, List.length_cons]
      omega
    | @plus rest hfilled =>
      have hrest := ih rest
      rw [List.length_cons]
      omega

/-- Whatever a text holds, its formula has at most two levels more than the limit, and at most as
many nodes as the cleaned text has characters. -/
theorem parseWithin_bounded (limit : Nat) (s : String) :
    (parseWithin limit s).depth ≤ limit + 2 ∧
      (parseWithin limit s).size ≤ max 1 (cleanWithin limit s.toList).length :=
  ⟨depth_ofPlain_le (limit + 1) _, size_ofPlain_le (limit + 1) _⟩

/-! ### The bound is reached -/

/-- Signs before a field. -/
def signedField (signs : Nat) : List Char := List.replicate signs '-' ++ ['x']

private theorem isOperand_signedField (signs : Nat) : IsOperand 4 (signedField signs) := by
  induction signs with
  | zero => exact isOperand_of_isIdentifier (by decide)
  | succ signs ih => exact ih.minus_cons

private theorem not_isBlank_of_mem_signedField {signs : Nat} {c : Char}
    (hc : c ∈ signedField signs) : isBlank c = false := by
  rcases List.mem_append.mp hc with hc | hc
  · rw [List.eq_of_mem_replicate hc]
    decide
  · rw [List.mem_singleton.mp hc]
    decide

private theorem depth_ofPlain_signedField (signs : Nat) :
    (ofPlain signs (signedField signs)).depth = signs + 1 := by
  induction signs with
  | zero => rfl
  | succ signs ih =>
    have htrimmed : IsTrimmed (signedField (signs + 1)) :=
      .of_forall fun c hc ↦ not_isBlank_of_mem_signedField hc
    have hnumber : numberLiteral? (signedField (signs + 1)) = none := by
      cases signs with
      | zero => exact numberLiteral?_minus_cons (by decide) (by decide) _
      | succ signs => exact numberLiteral?_minus_cons (by decide) (by decide) _
    have hread : ofPlain (signs + 1) (signedField (signs + 1)) =
        .negate (ofPlain signs (signedField signs)) :=
      ofPlain_minus (isOperand_signedField signs) htrimmed hnumber signs
    rw [hread, depth, ih]
    omega

/-- For every limit there is a text whose formula has two levels more: one sign more than the limit
before a field. -/
theorem exists_depth_parseWithin_eq (limit : Nat) :
    ∃ s, (parseWithin limit s).depth = limit + 2 := by
  refine ⟨String.ofList (signedField (limit + 1)), ?_⟩
  have hplain := (isOperand_signedField (limit + 1)).plain
  have hexpand : expandFractions limit (signedField (limit + 1)) = signedField (limit + 1) :=
    expandFractions_eq_self (not_mem_of_plain hplain (by decide)) limit
  rw [parseWithin, String.toList_ofList, cleanWithin_of_plain hexpand hplain, ofPlain_trim,
    collapseBlanks_eq_self fun c hc ↦ not_isBlank_of_mem_signedField hc]
  exact depth_ofPlain_signedField (limit + 1)

end FilterPipeline.Formula
