import FilterPipeline.Proofs.NumberLiterals

/-!
# Written formulas

`Written` is the notation for formulas by its rules: which operands need parentheses, and that
further parentheses and spaces may stand anywhere. Reading follows no such rules, it searches for
the character to take a text apart at. Main statement: each text that the rules allow for a formula
is read as that formula, within any limit that its depth allows.
-/

namespace FilterPipeline.Formula

open Text

/-- A numeral without exponent is an operand: its minus is a sign. -/
theorem isOperand_plainText {n : Numeral} (h : n.IsPlain) : IsOperand 4 n.plainText := by
  rw [← h.literalText_eq 'e']
  apply isOperand_literalText h.isLiteral (.inl rfl)
  rintro ⟨-, sign, digits, hsome⟩
  rw [h.exponent] at hsome
  cases hsome

/-- A numeral without exponent has no blanks. -/
theorem not_isBlank_of_mem_plainText {n : Numeral} (h : n.IsPlain) {c : Char}
    (hc : c ∈ n.plainText) : isBlank c = false := by
  rw [← h.literalText_eq 'e'] at hc
  exact (isPlainChar_of_mem_literalText h.isLiteral (.inl rfl) hc).2.2.2

/-- A numeral without exponent is read as its number. -/
theorem ofPlain_plainText {n : Numeral} (h : n.IsPlain) (levels : Nat) :
    ofPlain (levels + 1) n.plainText = .number n.toDouble := by
  rw [← h.literalText_eq 'e']
  apply (ofPlain_literalText_iff h.isLiteral (.inl rfl) levels).mpr
  rintro ⟨-, sign, digits, hsome⟩
  rw [h.exponent] at hsome
  cases hsome

/-! ### The notation -/

/-- A leaf has one level already. -/
theorem depth_pos (t : Formula) : 0 < t.depth := by
  cases t <;> simp only [depth] <;> omega

/-- A limit that allows the depth of a formula allows one level. -/
theorem exists_eq_succ_of_depth_le {t : Formula} {levels : Nat} (h : t.depth ≤ levels) :
    ∃ k, levels = k + 1 := by
  have hpos := t.depth_pos
  exact ⟨levels - 1, by omega⟩

/-- The texts that write a formula. The level tells how tightly a text binds without parentheses
around it: as its operator or, where there is none outside parentheses, more tightly than all. -/
inductive Written : (level : Nat) → Formula → List Char → Prop
  | number {n : Numeral} (h : n.IsPlain) : Written 4 (.number n.toDouble) n.plainText
  | field {cs : List Char} (h : isIdentifier cs = true) : Written 4 (.field (String.ofList cs)) cs
  | call (f : MathFunction) (spaces : Nat) {level : Nat} {arg : Formula} {cs : List Char}
      (h : Written level arg cs) :
      Written 4 (.call f arg) (f.name.toList ++ List.replicate spaces ' ' ++ ('(' :: cs ++ [')']))
  | negate (spaces : Nat) {level : Nat} {arg : Formula} {cs : List Char}
      (h : Written level arg cs) :
      Written 4 (.negate arg) ('-' :: List.replicate spaces ' ' ++ ('(' :: cs ++ [')']))
  | parenthesised {level : Nat} {t : Formula} {cs : List Char} (h : Written level t cs) :
      Written 4 t ('(' :: cs ++ [')'])
  | spaced (before after : Nat) {level : Nat} {t : Formula} {cs : List Char}
      (h : Written level t cs) :
      Written level t (List.replicate before ' ' ++ cs ++ List.replicate after ' ')
  | binary {op : BinaryOp} {p q : Nat} (hadmits : op.Admits p q) {l r : Formula}
      {a b : List Char} (hl : Written p l a) (hr : Written q r b) :
      Written op.precedence (.binary op l r) (a ++ op.symbol :: b)

/-- The name of a function is an identifier. -/
theorem isIdentifier_name (f : MathFunction) : isIdentifier f.name.toList = true := by
  cases f <;> decide

private theorem name_spaces_plain (f : MathFunction) (spaces : Nat) :
    ∀ c ∈ f.name.toList ++ List.replicate spaces ' ',
      isPlainChar c = true ∧ c ≠ '(' ∧ c ≠ ')' := by
  intro c hc
  rcases List.mem_append.mp hc with hc | hc
  · exact isPlainChar_of_isIdentifierChar
      (isIdentifierChar_of_isIdentifier (isIdentifier_name f) c hc)
  · rw [List.eq_of_mem_replicate hc]
    decide

namespace Written

variable {level : Nat} {t : Formula} {cs : List Char}

/-- A field is written as its path. -/
theorem path {path : String} (h : isIdentifier path.toList = true) :
    Written 4 (.field path) path.toList := by
  have hfield := Written.field h
  rw [String.ofList_toList] at hfield
  exact hfield

/-- A whole number is written in digits. -/
theorem whole {digits : List Char} (hne : digits ≠ []) (h : digits.all Char.isDigit = true) :
    Written 4 (.number (.ofInt (Numeral.digitsValue digits))) digits := by
  have hplain : (Numeral.mk none digits none none).IsPlain :=
    ⟨.inl rfl, hne, h, by simp, rfl⟩
  have hnumber := Written.number hplain
  rw [Numeral.toDouble_whole, Numeral.plainText, Numeral.magnitudeText, Option.toList_none,
    List.nil_append, List.append_nil] at hnumber
  exact hnumber

/-- A text that writes a formula is an operand of its level. -/
theorem isOperand (h : Written level t cs) : IsOperand level cs := by
  induction h with
  | number h => exact isOperand_plainText h
  | field h => exact isOperand_of_isIdentifier h
  | call f spaces _ ih =>
    apply ih.enclosed (name_spaces_plain f spaces)
    intro left op right hname
    apply absurd _ (symbol_not_mem_of_ofName? (ofName?_name f spaces) op)
    rw [hname]
    exact List.mem_append_right left List.mem_cons_self
  | negate spaces _ ih => exact ih.negated spaces
  | parenthesised _ ih => exact ih.parenthesised
  | spaced before after _ ih => exact ih.spaced before after
  | binary hadmits _ _ ihl ihr => exact .binary hadmits ihl ihr

/-- Spaces may stand behind a text that writes a formula. -/
theorem append_spaces (h : Written level t cs) (n : Nat) :
    Written level t (cs ++ List.replicate n ' ') := by
  have hspaced := h.spaced 0 n
  rw [List.replicate_zero, List.nil_append] at hspaced
  exact hspaced

/-- Spaces may stand before a text that writes a formula. -/
theorem spaces_append (h : Written level t cs) (n : Nat) :
    Written level t (List.replicate n ' ' ++ cs) := by
  have hspaced := h.spaced n 0
  rw [List.replicate_zero, List.append_nil] at hspaced
  exact hspaced

private theorem exists_core (h : Written level t cs) :
    ∃ before core after,
      cs = List.replicate before ' ' ++ core ++ List.replicate after ' ' ∧ Written level t core ∧
        IsTrimmed core := by
  have hself : ∀ {level t cs}, Written level t cs → IsTrimmed cs → ∃ before core after,
      cs = List.replicate before ' ' ++ core ++ List.replicate after ' ' ∧ Written level t core ∧
        IsTrimmed core := by
    intro level t cs hcs htrimmed
    exact ⟨0, cs, 0, by simp, hcs, htrimmed⟩
  induction h with
  | number h => exact hself (.number h) (.of_forall fun c hc ↦ not_isBlank_of_mem_plainText h hc)
  | field h =>
    apply hself (.field h)
    apply IsTrimmed.of_forall
    exact fun c hc ↦ not_isBlank_of_isIdentifierChar (isIdentifierChar_of_isIdentifier h c hc)
  | call f spaces h ih => exact hself (.call f spaces h) (isTrimmed_call f spaces _)
  | negate spaces h ih => exact hself (.negate spaces h) (isTrimmed_negation spaces _)
  | parenthesised h ih => exact hself (.parenthesised h) (.of_ends (by decide) (by decide) _)
  | spaced before after h ih =>
    obtain ⟨before', core, after', rfl, hcore, htrimmed⟩ := ih
    refine ⟨before + before', core, after' + after, ?_, hcore, htrimmed⟩
    simp only [List.append_assoc, List.replicate_append_replicate]
    simp only [← List.append_assoc, List.replicate_append_replicate]
  | @binary op p q hadmits l r a b hl hr ihl ihr =>
    obtain ⟨before, a, middle, rfl, ha, hatrimmed⟩ := ihl
    obtain ⟨middle', b, after, rfl, hb, hbtrimmed⟩ := ihr
    refine ⟨before,
      a ++ List.replicate middle ' ' ++ op.symbol :: (List.replicate middle' ' ' ++ b), after,
      by simp, .binary hadmits (ha.append_spaces middle) (hb.spaces_append middle'), ?_⟩
    exact ha.isOperand.isTrimmed hb.isOperand hatrimmed hbtrimmed middle middle'

/-- A text that writes a formula is read as it when as many levels are allowed as it has. -/
theorem ofPlain_eq (h : Written level t cs) {levels : Nat} (hdepth : t.depth ≤ levels) :
    ofPlain levels cs = t := by
  obtain ⟨levels, rfl⟩ := exists_eq_succ_of_depth_le hdepth
  induction h generalizing levels with
  | number h => exact ofPlain_plainText h levels
  | field h => exact ofPlain_field h levels
  | @call f spaces _ arg cs h ih =>
    rw [depth] at hdepth
    have harg : arg.depth ≤ levels := by omega
    obtain ⟨levels, rfl⟩ := exists_eq_succ_of_depth_le harg
    rw [ofPlain_call h.isOperand, ih levels harg]
  | @negate spaces _ arg cs h ih =>
    rw [depth] at hdepth
    have harg : arg.depth ≤ levels := by omega
    obtain ⟨levels, rfl⟩ := exists_eq_succ_of_depth_le harg
    rw [ofPlain_negate h.isOperand, ih levels harg]
  | parenthesised h ih => rw [ofPlain_enclosed h.isOperand, ih levels hdepth]
  | spaced before after h ih => rw [ofPlain_spaced, ih levels hdepth]
  | @binary op p q hadmits l r a b hl hr ihl ihr =>
    rw [depth] at hdepth
    have hleft : l.depth ≤ levels := by omega
    have hright : r.depth ≤ levels := by omega
    obtain ⟨before, a, middle, rfl, ha, hatrimmed⟩ := hl.exists_core
    obtain ⟨middle', b, after, rfl, hb, hbtrimmed⟩ := hr.exists_core
    have htext : List.replicate before ' ' ++ a ++ List.replicate middle ' ' ++
        op.symbol :: (List.replicate middle' ' ' ++ b ++ List.replicate after ' ') =
        List.replicate before ' ' ++ (a ++ List.replicate middle ' ' ++
          op.symbol :: (List.replicate middle' ' ' ++ b)) ++ List.replicate after ' ' := by
      simp
    obtain ⟨levels, rfl⟩ := exists_eq_succ_of_depth_le hleft
    have hreadLeft := ihl levels hleft
    have hreadRight := ihr levels hright
    rw [ofPlain_spaced] at hreadLeft hreadRight
    have htrimmed : IsTrimmed (a ++ List.replicate middle ' ' ++
        op.symbol :: (List.replicate middle' ' ' ++ b)) :=
      ha.isOperand.isTrimmed hb.isOperand hatrimmed hbtrimmed middle middle'
    rw [htext, ofPlain_spaced, ofPlain_binary (levels + 1) hadmits
      (ha.append_spaces middle).isOperand (hb.spaces_append middle').isOperand htrimmed,
      ofPlain_append_spaces, ofPlain_spaces_append, hreadLeft, hreadRight]

/-- Shrinking blanks leaves a text that writes the same formula: they stand only where any number of
them may. -/
theorem collapseBlanks (h : Written level t cs) (afterBlank : Bool) :
    Written level t (collapseBlanks afterBlank cs) := by
  induction h generalizing afterBlank with
  | number h =>
    rw [collapseBlanks_eq_self]
    · exact .number h
    · exact fun c hc ↦ not_isBlank_of_mem_plainText h hc
  | field h =>
    rw [collapseBlanks_eq_self]
    · exact .field h
    · exact fun c hc ↦ not_isBlank_of_isIdentifierChar (isIdentifierChar_of_isIdentifier h c hc)
  | call f spaces h ih =>
    have hname : ∀ c ∈ f.name.toList, isBlank c = false := by
      intro c hc
      apply not_isBlank_of_isIdentifierChar
      exact isIdentifierChar_of_isIdentifier (isIdentifier_name f) c hc
    obtain ⟨m, hshrunk⟩ := collapseBlanks_append_spaces f.name.toList spaces afterBlank
    rw [collapseBlanks_enclosed, hshrunk, collapseBlanks_eq_self hname]
    exact .call f m (ih false)
  | negate spaces h ih =>
    obtain ⟨m, hshrunk⟩ := collapseBlanks_append_spaces ['-'] spaces afterBlank
    have hminus : ∀ c ∈ ['-'], isBlank c = false := by
      rw [List.forall_mem_singleton]
      decide
    rw [collapseBlanks_eq_self hminus, List.singleton_append, List.singleton_append] at hshrunk
    rw [collapseBlanks_enclosed, hshrunk]
    exact .negate m (ih false)
  | @parenthesised _ _ cs h ih =>
    have henclosed := collapseBlanks_enclosed [] cs afterBlank
    rw [List.nil_append, Formula.collapseBlanks, List.nil_append] at henclosed
    rw [henclosed]
    exact .parenthesised (ih false)
  | @spaced before after _ _ cs h ih =>
    rw [List.append_assoc]
    obtain ⟨m, later, hbefore⟩ := collapseBlanks_spaces_append before
      (cs ++ List.replicate after ' ') afterBlank
    obtain ⟨n, hafter⟩ := collapseBlanks_append_spaces cs after later
    rw [hbefore, hafter, ← List.append_assoc]
    exact .spaced m n (ih later)
  | @binary op p q hadmits l r a b hl hr ihl ihr =>
    have hsymbol : isBlank op.symbol = false := by cases op <;> decide
    rw [collapseBlanks_append_cons hsymbol]
    exact .binary hadmits (ihl afterBlank) (ihr false)

/-- A text that writes a formula is read as it, once cleaned, within any limit that its depth
allows. -/
theorem ofPlain_cleanWithin {limit : Nat} {written : List Char}
    (hexpand : expandFractions limit written = cs) (h : Written level t cs)
    (hdepth : t.depth ≤ limit + 1) : ofPlain (limit + 1) (cleanWithin limit written) = t := by
  rw [cleanWithin_of_plain hexpand h.isOperand.plain, ofPlain_trim]
  exact (h.collapseBlanks false).ofPlain_eq hdepth

/-- A text that writes a formula has no commands. -/
theorem expandFractions_eq (h : Written level t cs) (limit : Nat) :
    expandFractions limit cs = cs :=
  expandFractions_eq_self (not_mem_of_plain h.isOperand.plain (by decide)) limit

end Written

/-- Each notation of a formula is read as that formula, whatever redundant parentheses and spaces it
has, within any limit that the depth of the formula allows. -/
theorem parseWithin_of_written {level limit : Nat} {t : Formula} {s : String}
    (h : Written level t s.toList) (hdepth : t.depth ≤ limit + 1) : parseWithin limit s = t := by
  rw [parseWithin]
  exact h.ofPlain_cleanWithin (h.expandFractions_eq limit) hdepth

/-- A formula with all operators, and with chains of operators that bind alike in it. -/
def mixed : Formula :=
  .binary .subtract
    (.binary .add
      (.binary .subtract
        (.binary .multiply (.binary .subtract (.field "x2e") (.number (.ofInt 5)))
          (.binary .power (.field "a")
            (.binary .power (.field "b") (.call .sin (.number (.ofInt 2))))))
        (.field "e"))
      (.field "c"))
    (.binary .divide (.binary .multiply (.binary .divide (.field "d") (.field "f")) (.field "g"))
      (.field "h"))

/-- It can be written with parentheses where they are needed and where they are not, and with spaces
between some of the characters. -/
theorem written_mixed :
    Written 1 mixed "( x2e-5 )*a ^ b^sin ((2))-e + c - d/f*g /h ".toList := by
  have ha : Written 4 (.field "a") ['a'] := .path (by decide)
  have hb : Written 4 (.field "b") ['b'] := .path (by decide)
  have hc : Written 4 (.field "c") ['c'] := .path (by decide)
  have hd : Written 4 (.field "d") ['d'] := .path (by decide)
  have he : Written 4 (.field "e") ['e'] := .path (by decide)
  have hf : Written 4 (.field "f") ['f'] := .path (by decide)
  have hg : Written 4 (.field "g") ['g'] := .path (by decide)
  have hh : Written 4 (.field "h") ['h'] := .path (by decide)
  have hx : Written 4 (.field "x2e") ['x', '2', 'e'] := .path (by decide)
  have htwo : Written 4 (.number (.ofInt 2)) ['2'] := @Written.whole ['2'] (by decide) (by decide)
  have hfive : Written 4 (.number (.ofInt 5)) ['5'] := @Written.whole ['5'] (by decide) (by decide)
  have hdifference := @Written.binary .subtract 4 4 (by decide) _ _ _ _ hx hfive
  have hpower := @Written.binary .power 4 4 (by decide) _ _ _ _ hb
    (.call .sin 1 (.parenthesised htwo))
  have hchain := @Written.binary .power 4 3 (by decide) _ _ _ _ (ha.spaced 0 1) (hpower.spaced 1 0)
  have hproduct := @Written.binary .multiply 4 3 (by decide) _ _ _ _
    (.parenthesised (hdifference.spaced 1 1)) hchain
  have hfirst := @Written.binary .subtract 2 4 (by decide) _ _ _ _ hproduct (he.spaced 0 1)
  have hsum := @Written.binary .add 1 4 (by decide) _ _ _ _ hfirst (hc.spaced 1 1)
  have hquotient := @Written.binary .divide 4 4 (by decide) _ _ _ _ (hd.spaced 1 0) hf
  have hscaled := @Written.binary .multiply 2 4 (by decide) _ _ _ _ hquotient (hg.spaced 0 1)
  have hlast := @Written.binary .divide 2 4 (by decide) _ _ _ _ hscaled (hh.spaced 0 1)
  exact @Written.binary .subtract 1 2 (by decide) _ _ _ _ hsum hlast

/-- A minus behind a name that ends like the mantissa of a number subtracts, chains are grouped as
they should be, and redundant parentheses do not matter. -/
theorem parseWithin_mixed :
    Written 1 mixed "( x2e-5 )*a ^ b^sin ((2))-e + c - d/f*g /h ".toList ∧ mixed.depth = 8 ∧
      parseWithin 7 "( x2e-5 )*a ^ b^sin ((2))-e + c - d/f*g /h " = mixed :=
  ⟨written_mixed, by decide, parseWithin_of_written written_mixed (by decide)⟩

end FilterPipeline.Formula
