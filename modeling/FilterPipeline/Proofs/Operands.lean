import FilterPipeline.Proofs.MainOperator
import FilterPipeline.Proofs.FormulaNames

/-!
# Operands

Reading takes a text apart by looking for characters, not by following a grammar. What it needs to
know of a part is gathered in `IsOperand`: the parentheses belong together, a minus behind the part
subtracts, and no operator outside its parentheses binds less tightly than a given level. Main
statements: numbers and names are operands, and so is what parentheses, signs, function names and
operators make of operands.
-/

namespace FilterPipeline

/-- Whether an operator takes operands of two levels without parentheses around them. Only one of
them may bind as loosely as the operator itself: the one that a chain is grouped at. -/
def BinaryOp.Admits (op : BinaryOp) (left right : Nat) : Prop :=
  if op.isRightAssociative then op.precedence < left ∧ op.precedence ≤ right
  else op.precedence ≤ left ∧ op.precedence < right

/-- Whether an operator takes operands of two levels is decided by comparing them with its own. -/
instance (op : BinaryOp) (left right : Nat) : Decidable (op.Admits left right) :=
  inferInstanceAs (Decidable (if op.isRightAssociative then op.precedence < left ∧
    op.precedence ≤ right else op.precedence ≤ left ∧ op.precedence < right))

namespace Formula

open Text

/-! ### Where a plus or minus is a sign -/

/-- A text, given in reverse, behind which an operand begins: it ends with an operator or an opening
parenthesis, spaces aside, and does not go on with the word behind it. -/
structure OpensOperand (before : List Char) : Prop where
  head : ∀ c, before.head? = some c → isIdentifierChar c = false
  last : ∀ c rest, before.dropWhile (· == ' ') = c :: rest → "+-*/^(".toList.contains c = true

/-- Whether a plus or minus is a sign does not depend on what stands before the operand that it
belongs to. -/
theorem isSignAfter_append {rest : List Char} (h : OpensOperand rest) (before : List Char) :
    isSignAfter (before ++ rest) = isSignAfter before := by
  rw [isSignAfter, isSignAfter, List.dropWhile_append]
  cases hdrop : before.dropWhile (· == ' ') with
  | nil =>
    rw [List.isEmpty_nil, if_pos rfl]
    split
    · rfl
    · next c later heq => rw [h.last c later heq, Bool.true_or]
  | cons c later =>
    have hhead : (before ++ rest).head? = before.head? := by
      cases before with
      | nil => cases hdrop
      | cons d before => rfl
    have hdigit : (later ++ rest).head?.any Char.isDigit = later.head?.any Char.isDigit := by
      cases later with
      | cons d later => rfl
      | nil =>
        cases rest with
        | nil => rfl
        | cons d rest =>
          have hd := h.head d rfl
          simp only [isIdentifierChar, Char.isAlphanum, Bool.or_eq_false_iff] at hd
          exact hd.1.1.2
    have hword :
        ((later ++ rest).dropWhile fun c ↦ c.isDigit || c == '.').head?.any
            (fun c ↦ c.isAlphanum || c == '_') =
          (later.dropWhile fun c ↦ c.isDigit || c == '.').head?.any
            fun c ↦ c.isAlphanum || c == '_' := by
      rw [List.dropWhile_append]
      split
      · next hempty =>
        rw [List.isEmpty_iff.mp hempty]
        cases rest with
        | nil => rfl
        | cons d rest =>
          have hd := h.head d rfl
          simp only [isIdentifierChar, Char.isAlphanum, Bool.or_eq_false_iff] at hd
          simp [Char.isAlphanum, hd]
      · next hsome =>
        cases hlater : later.dropWhile fun c ↦ c.isDigit || c == '.' with
        | nil => simp [hlater] at hsome
        | cons d later => rfl
    simp only [List.isEmpty_cons, Bool.false_eq_true, if_false, List.cons_append, hhead, hdigit,
      hword]

/-- Behind an operator an operand begins. -/
theorem opensOperand_symbol (op : BinaryOp) (rest : List Char) :
    OpensOperand (op.symbol :: rest) where
  head c hc := by
    rw [List.head?_cons, Option.some.injEq] at hc
    rw [← hc]
    exact (isSeparator_symbol op).1
  last c later hc := by
    have hspace : (op.symbol == ' ') = false := by cases op <;> decide
    rw [List.dropWhile_cons, hspace, if_neg Bool.false_ne_true, List.cons.injEq] at hc
    rw [← hc.1]
    cases op <;> decide

private theorem opensOperand_spaces (n : Nat) : OpensOperand (List.replicate n ' ') where
  head c hc := by
    rw [List.eq_of_mem_replicate (List.mem_of_head? hc)]
    decide
  last c later hc := by
    rw [List.dropWhile_replicate, if_pos (by decide)] at hc
    cases hc

private theorem isSignAfter_spaces_append {before : List Char} (h : isSignAfter before = false)
    (n : Nat) :
    isSignAfter (List.replicate n ' ' ++ before) = false := by
  cases n with
  | zero => exact h
  | succ n =>
    have hspaces : ∀ c ∈ List.replicate (n + 1) ' ', (c == ' ') = true := by
      intro c hc
      rw [List.eq_of_mem_replicate hc]
      decide
    rw [isSignAfter, List.dropWhile_append_of_pos hspaces]
    rw [isSignAfter] at h
    split at h
    · cases h
    · next c later hdrop =>
      -- The character that is looked at is no space, so it does not stand right before the sign.
      have hne : ' ' ≠ c := by
        have hnot := List.head?_dropWhile_not (· == ' ') before
        rw [hdrop] at hnot
        rintro rfl
        simp at hnot
      rw [Bool.or_eq_false_iff] at h
      simp only [h.1, List.replicate_succ, List.cons_append, List.head?_cons, Option.some_beq_some,
        beq_eq_false_iff_ne.mpr hne, Bool.and_false, Bool.false_and, Bool.or_false]

/-- A minus subtracts behind a character that ends neither an operator nor an exponent. -/
theorem isSignAfter_cons {c : Char} (hspace : c ≠ ' ')
    (hoperator : "+-*/^(".toList.contains c = false) (he : c ≠ 'e') (hE : c ≠ 'E')
    (before : List Char) : isSignAfter (c :: before) = false := by
  rw [isSignAfter, List.dropWhile_cons, if_neg (by simpa using hspace)]
  simp only [hoperator, beq_eq_false_iff_ne.mpr he, beq_eq_false_iff_ne.mpr hE, Bool.or_false,
    Bool.false_and]

private theorem any_head?_dropWhile {before : List Char} {first : Char}
    (hstart : isIdentifierStart first = true)
    (hchars : ∀ c ∈ before, isIdentifierChar c = true) :
    ((before ++ [first]).dropWhile fun c ↦ c.isDigit || c == '.').head?.any
      (fun c ↦ c.isAlphanum || c == '_') = true := by
  induction before with
  | nil =>
    have hfirst : (first.isDigit || first == '.') = false := by
      rw [Bool.or_eq_false_iff, beq_eq_false_iff_ne]
      constructor
      · apply Bool.eq_false_iff.mpr
        intro hdigit
        rw [not_start_of_isDigit hdigit] at hstart
        cases hstart
      · rintro rfl
        revert hstart
        decide
    rw [isIdentifierStart, Bool.or_eq_true] at hstart
    rw [List.nil_append, List.dropWhile_cons, hfirst]
    rcases hstart with halpha | hline
    · simp [Char.isAlphanum, halpha]
    · simp [hline]
  | cons c before ih =>
    rw [List.forall_mem_cons] at hchars
    rw [List.cons_append, List.dropWhile_cons]
    split
    · exact ih hchars.2
    · next hnot =>
      have hc := hchars.1
      rw [Bool.or_eq_true, not_or] at hnot
      rw [isIdentifierChar, Bool.or_eq_true] at hc
      exact hc.resolve_right hnot.2

private theorem isSignAfter_of_isIdentifier {cs : List Char} (h : isIdentifier cs = true) :
    isSignAfter cs.reverse = false := by
  cases cs with
  | nil => cases h
  | cons first cs =>
    rw [isIdentifier, Bool.and_eq_true, List.all_eq_true] at h
    obtain ⟨hstart, hchars⟩ := h
    have hnoOperator : ∀ c, isIdentifierChar c = true →
        "+-*/^(".toList.contains c = false ∧ (c == ' ') = false := by
      intro c hc
      constructor
      · rw [← Bool.not_eq_true, List.contains_iff_mem]
        exact not_mem_of_all_not (by decide) hc
      · rw [beq_eq_false_iff_ne]
        rintro rfl
        revert hc
        decide
    rw [List.reverse_cons]
    cases hrev : cs.reverse with
    | nil =>
      obtain ⟨hop, hspace⟩ := hnoOperator first (isIdentifierChar_of_start hstart)
      rw [List.nil_append, isSignAfter, List.dropWhile_cons, hspace]
      simp only [Bool.false_eq_true, if_false, hop, List.head?_nil, Option.any_none,
        Bool.and_false, Bool.false_and, Bool.or_false]
    | cons last before =>
      have hmem : ∀ c ∈ last :: before, isIdentifierChar c = true := by
        intro c hc
        rw [← hrev] at hc
        exact hchars c (List.mem_reverse.mp hc)
      rw [List.forall_mem_cons] at hmem
      obtain ⟨hop, hspace⟩ := hnoOperator last hmem.1
      rw [List.cons_append, isSignAfter, List.dropWhile_cons, hspace]
      simp only [Bool.false_eq_true, if_false, hop, any_head?_dropWhile hstart hmem.2,
        Bool.not_true, Bool.and_false, Bool.or_false]

/-! ### Operators in a text made of parts -/

/-- An operator of a text in two parts is in one of them. -/
theorem symbol_append_cases {a b left right : List Char} {c : Char}
    (h : a ++ b = left ++ c :: right) :
    (∃ r, a = left ++ c :: r ∧ right = r ++ b) ∨ ∃ l, left = a ++ l ∧ b = l ++ c :: right := by
  rcases List.append_eq_append_iff.mp h with ⟨l, hleft, hb⟩ | ⟨r, ha, hr⟩
  · exact .inr ⟨l, hleft, hb⟩
  · cases r with
    | nil =>
      rw [List.append_nil] at ha
      exact .inr ⟨[], by rw [ha, List.append_nil], hr.symm⟩
    | cons d r =>
      rw [List.cons_append, List.cons.injEq] at hr
      obtain ⟨rfl, hr⟩ := hr
      exact .inl ⟨r, ha, hr⟩

/-- An operator with an operator's operands on both sides is that operator or in one of them. -/
theorem symbol_append_cons_cases {a b left right : List Char} {c d : Char}
    (h : a ++ d :: b = left ++ c :: right) :
    (left = a ∧ d = c ∧ right = b) ∨ (∃ r, a = left ++ c :: r ∧ right = r ++ d :: b) ∨
      ∃ l, left = a ++ d :: l ∧ b = l ++ c :: right := by
  rcases symbol_append_cases h with ha | ⟨l, hleft, hb⟩
  · exact .inr (.inl ha)
  · cases l with
    | nil =>
      rw [List.nil_append, List.cons.injEq] at hb
      rw [List.append_nil] at hleft
      exact .inl ⟨hleft, hb.1, hb.2.symm⟩
    | cons e l =>
      rw [List.cons_append, List.cons.injEq] at hb
      obtain ⟨rfl, hb⟩ := hb
      exact .inr (.inr ⟨l, hleft, hb⟩)

/-- An operator before balanced text is one of what stands before it. -/
theorem IsOperatorAt.of_append_left {a b left r : List Char} {op : BinaryOp}
    (h : IsOperatorAt (a ++ b) ⟨left, op, r ++ b⟩) (ha : a = left ++ op.symbol :: r)
    (hb : b.count '(' = b.count ')') : IsOperatorAt a ⟨left, op, r⟩ where
  text := ha.symm
  level := by
    have hlevel := h.level
    rw [List.count_append, List.count_append, hb] at hlevel
    exact Nat.add_right_cancel hlevel
  binary := h.binary

/-- An operator behind text that opens an operand is one of what stands behind it. -/
theorem IsOperatorAt.of_append_right {a b l right : List Char} {op : BinaryOp}
    (h : IsOperatorAt (a ++ b) ⟨a ++ l, op, right⟩) (hb : b = l ++ op.symbol :: right)
    (ha : OpensOperand a.reverse) : IsOperatorAt b ⟨l, op, right⟩ where
  text := hb.symm
  level := h.level
  binary := by
    have hbinary := h.binary
    rw [List.reverse_append, isSignAfter_append ha] at hbinary
    exact hbinary

/-- The character of an operator is no parenthesis and no space. -/
theorem symbol_ne (op : BinaryOp) : op.symbol ≠ '(' ∧ op.symbol ≠ ')' ∧ op.symbol ≠ ' ' := by
  cases op <;> decide

private theorem count_ne_of_enclosed {cs left right : List Char} {op : BinaryOp}
    (hbalanced : IsBalanced '(' ')' cs) (h : '(' :: cs ++ [')'] = left ++ op.symbol :: right) :
    right.count '(' ≠ right.count ')' := by
  obtain ⟨hopening, hclosing, -⟩ := symbol_ne op
  cases left with
  | nil =>
    rw [List.nil_append, List.cons_append, List.cons.injEq] at h
    exact absurd h.1.symm hopening
  | cons c left =>
    rw [List.cons_append, List.cons_append, List.cons.injEq] at h
    rcases symbol_append_cases h.2 with ⟨r, hcs, rfl⟩ | ⟨l, -, hl⟩
    · have hle := hbalanced.count_le_of_suffix (by decide) hcs
      rw [List.count_cons_of_ne hopening, List.count_cons_of_ne hclosing] at hle
      rw [List.count_append, List.count_append, List.count_singleton, List.count_singleton]
      simp only [beq_iff_eq, Char.reduceEq, if_false, if_true, Nat.add_zero]
      omega
    · have hmem : op.symbol ∈ [')'] := by
        rw [hl]
        exact List.mem_append_right l List.mem_cons_self
      exact absurd (List.mem_singleton.mp hmem) hclosing

/-! ### Operands -/

/-- Whether a character can stand in plain notation: in a name or a number, as an operator, as a
parenthesis or as a space. -/
def isPlainChar (c : Char) : Bool := isIdentifierChar c || "+-*/^() ".toList.contains c

/-- A plain text that can stand beside an operator that binds less tightly than `level`: its own
operators outside parentheses bind at least that tightly. -/
structure IsOperand (level : Nat) (cs : List Char) : Prop where
  balanced : IsBalanced '(' ')' cs
  plain : ∀ c ∈ cs, isPlainChar c = true
  filled : allBlank cs = false
  ended : isSignAfter cs.reverse = false
  binds : ∀ s, IsOperatorAt cs s → level ≤ s.op.precedence

namespace IsOperand

variable {level : Nat} {cs : List Char}

/-- Every operator of a text without parentheses is a sign, so the text binds as one. -/
theorem of_signs (hplain : ∀ c ∈ cs, isPlainChar c = true ∧ c ≠ '(' ∧ c ≠ ')')
    (hsign : ∀ left (op : BinaryOp) right, cs = left ++ op.symbol :: right →
      (op.isSign && isSignAfter left.reverse) = true)
    (hfilled : allBlank cs = false) (hended : isSignAfter cs.reverse = false) :
    IsOperand 4 cs where
  balanced := .of_forall fun c hc ↦ (hplain c hc).2
  plain c hc := (hplain c hc).1
  filled := hfilled
  ended := hended
  binds s hs := by
    have hbinary := hs.binary
    rw [hsign s.left s.op s.right hs.text.symm] at hbinary
    cases hbinary

/-- An operand is not empty. -/
theorem ne_nil (h : IsOperand level cs) : cs ≠ [] := by
  rintro rfl
  cases h.filled

/-- Spaces around an operand belong to it. -/
theorem spaced (h : IsOperand level cs) (before after : Nat) :
    IsOperand level (List.replicate before ' ' ++ cs ++ List.replicate after ' ') where
  balanced := by
    have hspaces : ∀ n : Nat, IsBalanced '(' ')' (List.replicate n ' ') := by
      intro n
      apply IsBalanced.of_forall
      intro c hc
      rw [List.eq_of_mem_replicate hc]
      decide
    exact .append (.append (hspaces before) h.balanced) (hspaces after)
  plain c hc := by
    have hspace : ∀ n : Nat, c ∈ List.replicate n ' ' → isPlainChar c = true := by
      intro n hn
      rw [List.eq_of_mem_replicate hn]
      decide
    rw [List.mem_append, List.mem_append] at hc
    rcases hc with (hc | hc) | hc
    · exact hspace before hc
    · exact h.plain c hc
    · exact hspace after hc
  filled := by
    have hfilled := h.filled
    rw [allBlank] at hfilled ⊢
    rw [List.all_append, List.all_append, hfilled, Bool.and_false, Bool.false_and]
  ended := by
    rw [List.reverse_append, List.reverse_append, List.reverse_replicate, List.reverse_replicate]
    apply isSignAfter_spaces_append
    rw [isSignAfter_append (opensOperand_spaces before)]
    exact h.ended
  binds s hs := by
    have hnone : ∀ (n : Nat) (left right : List Char),
        List.replicate n ' ' ≠ left ++ s.op.symbol :: right := by
      intro n left right heq
      have hmem : s.op.symbol ∈ List.replicate n ' ' := by
        rw [heq]
        exact List.mem_append_right left List.mem_cons_self
      exact (symbol_ne s.op).2.2 (List.eq_of_mem_replicate hmem)
    obtain ⟨left, op, right⟩ := s
    rcases symbol_append_cases hs.text.symm with ⟨r, ha, rfl⟩ | ⟨l, -, hl⟩
    · have hleft := hs.of_append_left ha (by simp [List.count_replicate])
      rcases symbol_append_cases ha with ⟨r', hspaces, -⟩ | ⟨l, rfl, hcs⟩
      · exact absurd hspaces (hnone _ _ _)
      · refine h.binds ⟨l, op, r⟩ (hleft.of_append_right hcs ?_)
        rw [List.reverse_replicate]
        exact opensOperand_spaces before
    · exact absurd hl (hnone _ _ _)

/-- Spaces behind an operand belong to it. -/
theorem append_spaces (h : IsOperand level cs) (n : Nat) :
    IsOperand level (cs ++ List.replicate n ' ') := by
  have hspaced := h.spaced 0 n
  rw [List.replicate_zero, List.nil_append] at hspaced
  exact hspaced

/-- Spaces before an operand belong to it. -/
theorem spaces_append (h : IsOperand level cs) (n : Nat) :
    IsOperand level (List.replicate n ' ' ++ cs) := by
  have hspaced := h.spaced n 0
  rw [List.replicate_zero, List.append_nil] at hspaced
  exact hspaced

/-- Text in parentheses binds as one, also behind signs and names without parentheses. -/
theorem enclosed {start : List Char} (h : IsOperand level cs)
    (hplain : ∀ c ∈ start, isPlainChar c = true ∧ c ≠ '(' ∧ c ≠ ')')
    (hsign : ∀ left (op : BinaryOp) right, start = left ++ op.symbol :: right →
      (op.isSign && isSignAfter left.reverse) = true) :
    IsOperand 4 (start ++ ('(' :: cs ++ [')'])) where
  balanced := .append (.of_forall fun c hc ↦ (hplain c hc).2) h.balanced.enclosed
  plain c hc := by
    simp only [List.mem_append, List.mem_cons, List.not_mem_nil, or_false] at hc
    rcases hc with hc | (rfl | hc) | rfl
    · exact (hplain c hc).1
    · decide
    · exact h.plain c hc
    · decide
  filled := by
    have hopening : isBlank '(' = false := by decide
    rw [allBlank, List.all_append, List.cons_append, List.all_cons, hopening, Bool.false_and,
      Bool.and_false]
  ended := by
    rw [List.reverse_append, List.reverse_append, List.reverse_singleton, List.singleton_append,
      List.cons_append]
    exact isSignAfter_cons (by decide) (by decide) (by decide) (by decide) _
  binds s hs := by
    rcases symbol_append_cases hs.text.symm with ⟨r, hstart, -⟩ | ⟨l, -, hl⟩
    · have hbinary := hs.binary
      rw [hsign s.left s.op r hstart] at hbinary
      cases hbinary
    · exact absurd hs.level (count_ne_of_enclosed h.balanced hl)

/-- Text in parentheses binds as one. -/
theorem parenthesised (h : IsOperand level cs) : IsOperand 4 ('(' :: cs ++ [')']) := by
  have hstart : IsOperand 4 ([] ++ ('(' :: cs ++ [')'])) := h.enclosed (by simp) (by simp)
  exact hstart

/-- An operator of two operands around an operator is that operator or one of an operand. -/
theorem operator_cases {op : BinaryOp} {p q : Nat} {a b : List Char} {s : Split}
    (ha : IsOperand p a) (hb : IsOperand q b) (h : IsOperatorAt (a ++ op.symbol :: b) s) :
    s = ⟨a, op, b⟩ ∨ (p ≤ s.op.precedence ∧ s.left.length < a.length) ∨
      (q ≤ s.op.precedence ∧ a.length < s.left.length) := by
  obtain ⟨left, sop, right⟩ := s
  rcases symbol_append_cons_cases h.text.symm with
    ⟨hl, hop, hr⟩ | ⟨r, hcs, hright⟩ | ⟨l, hleft, hcs⟩
  · left
    rw [show left = a from hl, show right = b from hr, eq_of_symbol_eq hop]
  · right
    left
    subst hright
    have hin : IsOperatorAt a ⟨left, sop, r⟩ := by
      apply h.of_append_left hcs
      obtain ⟨hopening, hclosing, -⟩ := symbol_ne op
      rw [List.count_cons_of_ne hopening, List.count_cons_of_ne hclosing]
      exact hb.balanced.count_eq (by decide)
    have hbinds := ha.binds _ hin
    refine ⟨hbinds, ?_⟩
    rw [hcs, List.length_append, List.length_cons]
    dsimp only
    omega
  · right
    right
    subst hleft
    have hin : IsOperatorAt b ⟨l, sop, right⟩ := by
      have hpart : IsOperatorAt ((a ++ [op.symbol]) ++ b)
          ⟨(a ++ [op.symbol]) ++ l, sop, right⟩ := by
        rw [List.append_assoc, List.append_assoc]
        exact h
      apply hpart.of_append_right hcs
      rw [List.reverse_append, List.reverse_singleton, List.singleton_append]
      exact opensOperand_symbol op _
    have hbinds := hb.binds _ hin
    refine ⟨hbinds, ?_⟩
    dsimp only
    rw [List.length_append, List.length_cons]
    omega

/-- Two operands around an operator bind as tightly as the operator. -/
theorem binary {op : BinaryOp} {p q : Nat} {a b : List Char} (hadmits : op.Admits p q)
    (ha : IsOperand p a) (hb : IsOperand q b) :
    IsOperand op.precedence (a ++ op.symbol :: b) where
  balanced := by
    obtain ⟨hopening, hclosing, -⟩ := symbol_ne op
    exact .append ha.balanced (.append (.char hopening hclosing) hb.balanced)
  plain c hc := by
    rw [List.mem_append, List.mem_cons] at hc
    rcases hc with hc | rfl | hc
    · exact ha.plain c hc
    · cases op <;> decide
    · exact hb.plain c hc
  filled := by
    have hfilled := ha.filled
    rw [allBlank] at hfilled ⊢
    rw [List.all_append, hfilled, Bool.false_and]
  ended := by
    rw [List.reverse_append, List.reverse_cons, List.append_assoc, List.singleton_append,
      isSignAfter_append (opensOperand_symbol op _)]
    exact hb.ended
  binds s hs := by
    have hle : op.precedence ≤ p ∧ op.precedence ≤ q := by
      unfold BinaryOp.Admits at hadmits
      split at hadmits <;> omega
    rcases ha.operator_cases hb hs with rfl | ⟨hp, -⟩ | ⟨hq, -⟩
    · exact Nat.le_refl _
    · exact Nat.le_trans hle.1 hp
    · exact Nat.le_trans hle.2 hq

end IsOperand

/-! ### Names and negations -/

section

variable {level : Nat} {cs : List Char}

/-- A digit can stand in an identifier. -/
theorem isIdentifierChar_of_isDigit {c : Char} (h : c.isDigit = true) :
    isIdentifierChar c = true := by
  rw [isIdentifierChar, Char.isAlphanum, h, Bool.or_true, Bool.true_or, Bool.true_or]

/-- A character that can stand in an identifier is plain and no parenthesis. -/
theorem isPlainChar_of_isIdentifierChar {c : Char} (h : isIdentifierChar c = true) :
    isPlainChar c = true ∧ c ≠ '(' ∧ c ≠ ')' := by
  refine ⟨by rw [isPlainChar, h, Bool.true_or], ?_, ?_⟩
  · rintro rfl
    exact absurd h (by decide)
  · rintro rfl
    exact absurd h (by decide)

/-- An identifier binds as one. -/
theorem isOperand_of_isIdentifier (h : isIdentifier cs = true) : IsOperand 4 cs := by
  have hchars := isIdentifierChar_of_isIdentifier h
  apply IsOperand.of_signs
  · exact fun c hc ↦ isPlainChar_of_isIdentifierChar (hchars c hc)
  · intro left op right hcs
    have hsymbol : isIdentifierChar op.symbol = true := by
      apply hchars
      rw [hcs]
      exact List.mem_append_right left List.mem_cons_self
    rw [(isSeparator_symbol op).1] at hsymbol
    cases hsymbol
  · cases cs with
    | nil => cases h
    | cons c cs =>
      have hc := not_isBlank_of_isIdentifierChar (hchars c List.mem_cons_self)
      rw [allBlank, List.all_cons, hc, Bool.false_and]
  · exact isSignAfter_of_isIdentifier h

/-- A minus in front is no operator. -/
theorem isSign_of_minus_spaces (spaces : Nat) :
    ∀ left (op : BinaryOp) right, '-' :: List.replicate spaces ' ' = left ++ op.symbol :: right →
      (op.isSign && isSignAfter left.reverse) = true := by
  intro left op right h
  cases left with
  | nil =>
    rw [List.nil_append, List.cons.injEq] at h
    have hop : op = .subtract := eq_of_symbol_eq h.1.symm
    rw [hop]
    decide
  | cons c left =>
    rw [List.cons_append, List.cons.injEq] at h
    have hmem : op.symbol ∈ List.replicate spaces ' ' := by
      rw [h.2]
      exact List.mem_append_right left List.mem_cons_self
    exact absurd (List.eq_of_mem_replicate hmem) (symbol_ne op).2.2

/-- A plus or minus before an operand is a sign, so it changes nothing about how the operand binds.
-/
theorem IsOperand.sign_cons {sign : BinaryOp} (hsign : sign.isSign = true)
    (h : IsOperand level cs) : IsOperand level (sign.symbol :: cs) where
  balanced := .append (.char (symbol_ne sign).1 (symbol_ne sign).2.1) h.balanced
  plain := by
    rw [List.forall_mem_cons]
    exact ⟨by cases sign <;> decide, h.plain⟩
  filled := by
    have hfilled := h.filled
    rw [allBlank] at hfilled ⊢
    rw [List.all_cons, hfilled, Bool.and_false]
  ended := by
    rw [List.reverse_cons, isSignAfter_append (opensOperand_symbol sign [])]
    exact h.ended
  binds s hs := by
    obtain ⟨left, op, right⟩ := s
    cases left with
    | nil =>
      have hop : op = sign := eq_of_symbol_eq (List.cons.inj hs.text).1
      have hbinary := hs.binary
      rw [hop, hsign] at hbinary
      cases hbinary
    | cons c left =>
      obtain ⟨rfl, htext⟩ := List.cons.inj hs.text
      have hpart : IsOperatorAt ([sign.symbol] ++ cs) ⟨[sign.symbol] ++ left, op, right⟩ := hs
      exact h.binds ⟨left, op, right⟩
        (hpart.of_append_right htext.symm (opensOperand_symbol sign []))

/-- A minus before an operand is a sign. -/
theorem IsOperand.minus_cons (h : IsOperand level cs) : IsOperand level ('-' :: cs) :=
  @IsOperand.sign_cons _ _ .subtract rfl h

/-- A minus before an operand in parentheses binds as one. -/
theorem IsOperand.negated (h : IsOperand level cs) (spaces : Nat) :
    IsOperand 4 ('-' :: List.replicate spaces ' ' ++ ('(' :: cs ++ [')'])) :=
  (h.parenthesised.spaces_append spaces).minus_cons

end

end Formula
end FilterPipeline
