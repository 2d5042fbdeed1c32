import FilterPipeline.Proofs.Operands

/-!
# How plain text is read

Each form that plain text can have is read in one step: an operator between two operands, a name or
a number, and a text in parentheses, with or without a function's name or a minus before it. Main
statement: two operands around an operator that binds less tightly than theirs are read as the
operands of that operator, wherever else the text could be cut.
-/

namespace FilterPipeline.Formula

open Text

/-! ### Blanks at the ends -/

/-- The space is a blank. -/
theorem ne_space_of_isBlank {c : Char} (h : isBlank c = false) : c ≠ ' ' := by
  rintro rfl
  revert h
  decide

/-- A text that neither begins nor ends with a blank. -/
structure IsTrimmed (cs : List Char) : Prop where
  first : ∀ c rest, cs = c :: rest → isBlank c = false
  last : ∀ before c, cs = before ++ [c] → isBlank c = false

namespace IsTrimmed

/-- A text that neither begins nor ends with a blank stays as it is. -/
theorem trim_eq {cs : List Char} (h : IsTrimmed cs) : trim cs = cs := by
  have hfirst : cs.dropWhile isBlank = cs := by
    apply dropWhile_isBlank_eq_self
    intro c hc
    obtain ⟨rest, hrest⟩ := List.head?_eq_some_iff.mp hc
    exact h.first c rest hrest
  have hlast : cs.reverse.dropWhile isBlank = cs.reverse := by
    apply dropWhile_isBlank_eq_self
    intro c hc
    rw [List.head?_reverse] at hc
    obtain ⟨before, hbefore⟩ := List.getLast?_eq_some_iff.mp hc
    exact h.last before c hbefore
  rw [trim, hfirst, trimRight, hlast, List.reverse_reverse]

/-- A text is trimmed when no character of it is a blank. -/
theorem of_forall {cs : List Char} (h : ∀ c ∈ cs, isBlank c = false) : IsTrimmed cs where
  first c rest hcs := by
    apply h
    rw [hcs]
    exact List.mem_cons_self
  last before c hcs := by
    apply h
    rw [hcs]
    exact List.mem_append_right before List.mem_cons_self

/-- A text is trimmed when its first and its last character are no blanks. -/
theorem of_ends {c d : Char} (hc : isBlank c = false) (hd : isBlank d = false)
    (middle : List Char) : IsTrimmed (c :: (middle ++ [d])) where
  first e rest h := by
    rw [List.cons.injEq] at h
    rw [← h.1, hc]
  last before e h := by
    rw [← List.cons_append] at h
    have hlast := (List.append_inj' h rfl).2
    rw [List.cons.injEq] at hlast
    rw [← hlast.1, hd]

/-- Whatever stands between two trimmed texts, the whole is trimmed. -/
theorem append {a b : List Char} (ha : IsTrimmed a) (hb : IsTrimmed b) (hane : a ≠ [])
    (hbne : b ≠ []) (middle : List Char) : IsTrimmed (a ++ (middle ++ b)) where
  first c rest h := by
    cases a with
    | nil => exact absurd rfl hane
    | cons d a =>
      rw [List.cons_append, List.cons.injEq] at h
      rw [← h.1]
      exact ha.first d a rfl
  last before c h := by
    rcases List.eq_nil_or_concat b with rfl | ⟨b, d, rfl⟩
    · exact absurd rfl hbne
    · rw [List.concat_eq_append] at h hb
      rw [← List.append_assoc, ← List.append_assoc] at h
      have hlast := (List.append_inj' h rfl).2
      rw [List.cons.injEq] at hlast
      rw [← hlast.1]
      exact hb.last b d rfl

end IsTrimmed

/-- Blanks around a text are dropped with those at its ends. -/
theorem trim_append {before after : List Char} (hbefore : ∀ c ∈ before, isBlank c = true)
    (hafter : ∀ c ∈ after, isBlank c = true) (cs : List Char) :
    trim (before ++ cs ++ after) = trim cs := by
  rw [trim, List.append_assoc, List.dropWhile_append_of_pos hbefore, List.dropWhile_append, trim]
  split
  · next hempty =>
    have hnil : (after ++ []).dropWhile isBlank = [] := List.dropWhile_append_of_pos hafter
    rw [List.append_nil] at hnil
    rw [List.isEmpty_iff.mp hempty, hnil]
  · rw [trimRight, List.reverse_append, List.dropWhile_append_of_pos, trimRight]
    intro c hc
    exact hafter c (List.mem_reverse.mp hc)

/-- Blanks at the ends of a text do not change what it is read as. -/
theorem ofPlain_trim (levels : Nat) (cs : List Char) :
    ofPlain levels (trim cs) = ofPlain levels cs := by
  cases levels with
  | zero => simp only [ofPlain, trim_trim]
  | succ levels => simp only [ofPlain, trim_trim]

/-- Spaces around a text do not change what it is read as. -/
theorem ofPlain_spaced (levels before after : Nat) (cs : List Char) :
    ofPlain levels (List.replicate before ' ' ++ cs ++ List.replicate after ' ') =
      ofPlain levels cs := by
  have hspaces : ∀ n : Nat, ∀ c ∈ List.replicate n ' ', isBlank c = true := by
    intro n c hc
    rw [List.eq_of_mem_replicate hc]
    decide
  rw [← ofPlain_trim, trim_append (hspaces before) (hspaces after), ofPlain_trim]

/-- Spaces behind a text do not change what it is read as. -/
theorem ofPlain_append_spaces (levels n : Nat) (cs : List Char) :
    ofPlain levels (cs ++ List.replicate n ' ') = ofPlain levels cs := by
  have hspaced := ofPlain_spaced levels 0 n cs
  rw [List.replicate_zero, List.nil_append] at hspaced
  exact hspaced

/-- Spaces before a text do not change what it is read as. -/
theorem ofPlain_spaces_append (levels n : Nat) (cs : List Char) :
    ofPlain levels (List.replicate n ' ' ++ cs) = ofPlain levels cs := by
  have hspaced := ofPlain_spaced levels n 0 cs
  rw [List.replicate_zero, List.append_nil] at hspaced
  exact hspaced

/-! ### Reading a text at its main operator -/

section Operators

variable {op : BinaryOp} {p q : Nat} {a b : List Char}

/-- The operator between two operands that bind more tightly is the main one. -/
theorem IsOperand.mainOperator? (hadmits : op.Admits p q) (ha : IsOperand p a)
    (hb : IsOperand q b) : mainOperator? (a ++ op.symbol :: b) = some ⟨a, op, b⟩ := by
  rw [mainOperator?_eq_some_iff]
  constructor
  · have hbalanced : b.count '(' = b.count ')' := hb.balanced.count_eq (by decide)
    have hbinary : (op.isSign && isSignAfter a.reverse) = false := by
      rw [ha.ended, Bool.and_false]
    exact ⟨⟨rfl, hbalanced, hbinary⟩, ha.filled, hb.filled⟩
  · intro t ht
    -- A place in an operand loses: there the operator binds more tightly, or alike on the side that
    -- a chain is not grouped at.
    rcases ha.operator_cases hb ht.toIsOperatorAt with rfl | ⟨hp, hleft⟩ | ⟨hq, hright⟩
    · exact .inl rfl
    · right
      unfold BinaryOp.Admits at hadmits
      split at hadmits
      · left
        dsimp only
        omega
      · next hassoc =>
        by_cases heq : op.precedence = t.op.precedence
        · refine .inr ⟨heq, ?_⟩
          rw [if_neg]
          · exact hleft
          · rw [Split.isRightAssociative_iff] at hassoc ⊢
            omega
        · left
          dsimp only
          omega
    · right
      unfold BinaryOp.Admits at hadmits
      split at hadmits
      · next hassoc =>
        by_cases heq : op.precedence = t.op.precedence
        · refine .inr ⟨heq, ?_⟩
          rw [if_pos]
          · exact hright
          · rw [Split.isRightAssociative_iff] at hassoc ⊢
            omega
        · left
          dsimp only
          omega
      · left
        dsimp only
        omega

/-- Between trimmed operands on both sides of an operator there may be spaces. -/
theorem IsOperand.isTrimmed (ha : IsOperand p a) (hb : IsOperand q b) (hatrimmed : IsTrimmed a)
    (hbtrimmed : IsTrimmed b) (before after : Nat) :
    IsTrimmed (a ++ List.replicate before ' ' ++ op.symbol :: (List.replicate after ' ' ++ b)) := by
  rw [List.append_assoc, ← List.cons_append, ← List.append_assoc (List.replicate before ' ')]
  exact hatrimmed.append hbtrimmed ha.ne_nil hb.ne_nil _

private theorem IsOperand.stripParentheses (ha : IsOperand p a) (hb : IsOperand q b)
    (htrimmed : IsTrimmed (a ++ op.symbol :: b)) :
    stripParentheses (a ++ op.symbol :: b) = a ++ op.symbol :: b := by
  cases a with
  | nil => cases ha.filled
  | cons c a =>
    by_cases hc : c = '('
    · subst hc
      obtain ⟨inside, after, rfl, hinside⟩ := ha.balanced.exists_closing (by decide) (x := []) rfl
      rcases List.eq_nil_or_concat b with rfl | ⟨b, d, rfl⟩
      · cases hb.filled
      · have htext : '(' :: (inside ++ ')' :: after) ++ op.symbol :: b.concat d =
            '(' :: (inside ++ ')' :: (after ++ op.symbol :: b)) ++ [d] := by
          simp
        have hd : isBlank d = false := htrimmed.last _ d htext
        rw [htext]
        apply stripParentheses_of_closingAt? (ne_space_of_isBlank hd)
        rw [List.append_assoc, List.cons_append, hinside.closingAt?_closing (by decide)]
        simp only [List.length_append, List.length_cons, ne_eq, Option.some.injEq]
        omega
    · exact stripParentheses_of_head hc (ne_space_of_isBlank (htrimmed.first c _ rfl)) _

/-- A function's name holds no operator. -/
theorem symbol_not_mem_of_ofName? {name : List Char} {f : MathFunction}
    (h : MathFunction.ofName? name = some f) (op : BinaryOp) : op.symbol ∉ name := by
  intro hmem
  have hcases := isBlank_or_isAlpha_of_ofName? h hmem
  revert hcases
  cases op <;> decide

private theorem splitCall?_symbol_cons (op : BinaryOp) (cs : List Char) :
    splitCall? (op.symbol :: cs) = none := by
  cases hcall : splitCall? (op.symbol :: cs) with
  | none => rfl
  | some call =>
    obtain ⟨f, arg⟩ := call
    obtain ⟨name, -, hname, htext, -⟩ := splitCall?_eq_some_iff.mp hcall
    cases name with
    | nil =>
      rw [List.nil_append, List.cons.injEq] at htext
      exact absurd htext.1 (symbol_ne op).1
    | cons c name =>
      rw [List.cons_append, List.cons.injEq] at htext
      apply absurd (symbol_not_mem_of_ofName? hname op)
      rw [htext.1, Classical.not_not]
      exact List.mem_cons_self

private theorem IsOperand.splitCall? (ha : IsOperand p a) :
    splitCall? (a ++ op.symbol :: b) = none := by
  cases hcall : Formula.splitCall? (a ++ op.symbol :: b) with
  | none => rfl
  | some call =>
    exfalso
    obtain ⟨f, arg⟩ := call
    obtain ⟨name, -, hname, htext, hclose, -⟩ := splitCall?_eq_some_iff.mp hcall
    obtain ⟨hopening, -, -⟩ := symbol_ne op
    rcases symbol_append_cons_cases htext with ⟨-, hop, -⟩ | ⟨r, rfl, hr⟩ | ⟨l, rfl, -⟩
    · exact hopening hop
    · obtain ⟨inside, after, rfl, hinside⟩ := ha.balanced.exists_closing (by decide) rfl
      rw [hr, List.append_assoc, List.cons_append, hinside.closingAt?_closing (by decide),
        Option.some.injEq] at hclose
      have hlen := congrArg List.length hr
      simp only [List.length_append, List.length_cons, List.length_nil] at hlen
      omega
    · apply symbol_not_mem_of_ofName? hname op
      exact List.mem_append_right a List.mem_cons_self

/-- Two operands around an operator are read as the operands of the operator. -/
theorem ofPlain_binary (levels : Nat) (hadmits : op.Admits p q) (ha : IsOperand p a)
    (hb : IsOperand q b) (htrimmed : IsTrimmed (a ++ op.symbol :: b)) :
    ofPlain (levels + 1) (a ++ op.symbol :: b) =
      .binary op (ofPlain levels a) (ofPlain levels b) := by
  simp only [ofPlain]
  rw [htrimmed.trim_eq, ha.stripParentheses hb htrimmed, ha.splitCall?]
  dsimp only
  rw [ha.mainOperator? hadmits hb]

end Operators

/-! ### Reading a text that binds as one -/

private theorem eq_space_of_isBlank {c : Char} (hplain : isPlainChar c = true)
    (hblank : isBlank c = true) :
    c = ' ' := by
  have hall : "+-*/^() ".toList.all (fun c ↦ !isBlank c || c == ' ') = true := by decide
  rw [isPlainChar, (isSeparator_of_isBlank hblank).1, Bool.false_or,
    List.contains_iff_mem] at hplain
  have hcases := List.all_eq_true.mp hall c hplain
  rw [hblank] at hcases
  exact eq_of_beq hcases

section Operands

variable {level : Nat} {cs : List Char}

/-- Parentheses around an operand do not change what it is read as. -/
theorem ofPlain_enclosed (h : IsOperand level cs) (levels : Nat) :
    ofPlain (levels + 1) ('(' :: cs ++ [')']) = ofPlain (levels + 1) cs := by
  have htrimmed : IsTrimmed ('(' :: cs ++ [')']) := .of_ends (by decide) (by decide) cs
  have hstrip : stripParentheses ('(' :: cs ++ [')']) = stripParentheses (trim cs) := by
    apply stripParentheses_enclosed
    · exact fun c hc hblank ↦ eq_space_of_isBlank (h.plain c hc) hblank
    · exact h.balanced.closingAt?_closing (by decide) []
  simp only [ofPlain]
  rw [htrimmed.trim_eq, hstrip]

/-- A text that binds as one has no main operator. -/
theorem IsOperand.mainOperator?_eq_none (h : IsOperand 4 cs) : Formula.mainOperator? cs = none := by
  rw [mainOperator?_eq_none_iff]
  intro s hs
  have hbinds := h.binds s hs.toIsOperatorAt
  have hprecedence := s.op.precedence_le
  omega

/-- A text without parentheses is no call and has none around it. -/
theorem splitCall?_of_not_mem (h : '(' ∉ cs) :
    splitCall? cs = none ∧ stripParentheses cs = cs := by
  constructor
  · cases hcall : splitCall? cs with
    | none => rfl
    | some call =>
      obtain ⟨f, arg⟩ := call
      obtain ⟨name, -, -, rfl, -⟩ := splitCall?_eq_some_iff.mp hcall
      exact absurd (List.mem_append_right name List.mem_cons_self) h
  · rw [stripParentheses]
    split
    · rfl
    · next opening closing hlast =>
      obtain ⟨-, hopening, -⟩ := of_mem_wrappingPairs (List.mem_of_getLast? hlast)
      exact absurd (List.mem_of_getElem? hopening) h

/-- A number is read as such. -/
theorem ofPlain_number (h : IsOperand 4 cs) (hopening : '(' ∉ cs) (htrimmed : IsTrimmed cs)
    {x : Double} (hnumber : numberLiteral? cs = some x) (levels : Nat) :
    ofPlain (levels + 1) cs = .number x := by
  obtain ⟨hcall, hstrip⟩ := splitCall?_of_not_mem hopening
  simp only [ofPlain]
  rw [htrimmed.trim_eq, hstrip, hcall]
  dsimp only
  rw [h.mainOperator?_eq_none]
  dsimp only
  rw [hnumber]

private theorem numberLiteral?_of_isIdentifier (h : isIdentifier cs = true) :
    numberLiteral? cs = none := by
  cases hnumber : numberLiteral? cs with
  | none => rfl
  | some x =>
    simp only [numberLiteral?, Option.bind_eq_bind, Option.bind_eq_some_iff] at hnumber
    obtain ⟨n, hn, hdigits⟩ := hnumber
    split at hdigits
    · next hboth =>
      rw [Bool.and_eq_true] at hboth
      have hnone := identifiers_of_read? hn hboth.2
      rw [identifiers_of_isIdentifier h] at hnone
      cases hnone
    · cases hdigits

/-- An identifier is read as a field. -/
theorem ofPlain_field (h : isIdentifier cs = true) (levels : Nat) :
    ofPlain (levels + 1) cs = .field (String.ofList cs) := by
  have hchars := isIdentifierChar_of_isIdentifier h
  have htrimmed : IsTrimmed cs :=
    .of_forall fun c hc ↦ not_isBlank_of_isIdentifierChar (hchars c hc)
  have hopening : '(' ∉ cs := fun hmem ↦ absurd (hchars _ hmem) (by decide)
  obtain ⟨hcall, hstrip⟩ := splitCall?_of_not_mem hopening
  simp only [ofPlain]
  rw [htrimmed.trim_eq, hstrip, hcall]
  dsimp only
  rw [(isOperand_of_isIdentifier h).mainOperator?_eq_none]
  dsimp only
  rw [numberLiteral?_of_isIdentifier h]
  dsimp only
  rw [if_pos h]

/-- A function is found by its name, whatever spaces follow. -/
theorem ofName?_name (f : MathFunction) (spaces : Nat) :
    MathFunction.ofName? (f.name.toList ++ List.replicate spaces ' ') = some f := by
  have htrim : trim (f.name.toList ++ List.replicate spaces ' ') = f.name.toList := by
    have hspaces : ∀ c ∈ List.replicate spaces ' ', isBlank c = true := by
      intro c hc
      rw [List.eq_of_mem_replicate hc]
      decide
    have happend : trim ([] ++ f.name.toList ++ List.replicate spaces ' ') = trim f.name.toList :=
      trim_append (by simp) hspaces f.name.toList
    rw [List.nil_append] at happend
    rw [happend]
    cases f <;> decide
  rw [MathFunction.ofName?, htrim]
  cases f <;> decide

private theorem exists_name_cons (f : MathFunction) :
    ∃ c name, f.name.toList = c :: name ∧ c ≠ '(' ∧ c ≠ ' ' ∧ isBlank c = false := by
  cases f
  all_goals exact ⟨_, _, rfl, by decide, by decide, by decide⟩

/-- A call neither begins nor ends with a blank. -/
theorem isTrimmed_call (f : MathFunction) (spaces : Nat) (cs : List Char) :
    IsTrimmed (f.name.toList ++ List.replicate spaces ' ' ++ ('(' :: cs ++ [')'])) := by
  obtain ⟨c, name, hname, -, -, hblank⟩ := exists_name_cons f
  rw [hname, List.cons_append, List.cons_append, ← List.append_assoc]
  exact .of_ends hblank (by decide) _

/-- A negation neither begins nor ends with a blank. -/
theorem isTrimmed_negation (spaces : Nat) (cs : List Char) :
    IsTrimmed ('-' :: List.replicate spaces ' ' ++ ('(' :: cs ++ [')'])) := by
  rw [List.cons_append, ← List.append_assoc]
  exact .of_ends (by decide) (by decide) _

/-- A function's name with an operand in parentheses behind it is read as a call. -/
theorem ofPlain_call (h : IsOperand level cs) (levels spaces : Nat) (f : MathFunction) :
    ofPlain (levels + 1)
        (f.name.toList ++ List.replicate spaces ' ' ++ ('(' :: cs ++ [')'])) =
      .call f (ofPlain levels cs) := by
  have hcall : splitCall?
      (f.name.toList ++ List.replicate spaces ' ' ++ ('(' :: cs ++ [')'])) = some (f, cs) := by
    rw [splitCall?_eq_some_iff]
    refine ⟨_, ?_, ofName?_name f spaces, rfl, h.balanced.closingAt?_closing (by decide) [],
      h.filled⟩
    intro hmem
    rcases isBlank_or_isAlpha_of_ofName? (ofName?_name f spaces) hmem with hcases | hcases
    · exact absurd hcases (by decide)
    · exact absurd hcases (by decide)
  have hstrip : stripParentheses
      (f.name.toList ++ List.replicate spaces ' ' ++ ('(' :: cs ++ [')'])) =
        f.name.toList ++ List.replicate spaces ' ' ++ ('(' :: cs ++ [')']) := by
    obtain ⟨c, name, hname, hopening, hspace, -⟩ := exists_name_cons f
    rw [hname]
    exact stripParentheses_of_head hopening hspace _
  simp only [ofPlain]
  rw [(isTrimmed_call f spaces cs).trim_eq, hstrip, hcall]

/-- A minus with neither a digit nor a point behind it begins no number. -/
theorem numberLiteral?_minus_cons {c : Char} (hdigit : c.isDigit = false) (hpoint : c ≠ '.')
    (rest : List Char) : numberLiteral? ('-' :: c :: rest) = none := by
  have htake : (c :: rest).takeWhile Char.isDigit = [] := by
    rw [List.takeWhile_cons, hdigit]
    rfl
  have hdrop : (c :: rest).dropWhile Char.isDigit = c :: rest := by
    rw [List.dropWhile_cons, hdigit]
    rfl
  simp only [numberLiteral?, Numeral.read?, Numeral.takeSign, Char.reduceBEq, Bool.or_true, if_true,
    htake, hdrop]
  split
  · next heq => exact absurd (List.cons.inj heq).1 hpoint
  · -- What may be read is an exponent without digits before it.
    simp [Numeral.hasDigits]

private theorem symbol_cons_forms (sign : BinaryOp) (cs : List Char) :
    stripParentheses (sign.symbol :: cs) = sign.symbol :: cs ∧
      splitCall? (sign.symbol :: cs) = none ∧ isIdentifier (sign.symbol :: cs) = false := by
  obtain ⟨hopening, -, hspace⟩ := symbol_ne sign
  have hstart : isIdentifierStart sign.symbol = false := by cases sign <;> decide
  exact ⟨stripParentheses_of_head hopening hspace cs, splitCall?_symbol_cons sign cs,
    by rw [isIdentifier, hstart, Bool.false_and]⟩

/-- A minus that begins no number is read as a negation where what follows binds as one. -/
theorem ofPlain_minus (h : IsOperand 4 cs) (htrimmed : IsTrimmed ('-' :: cs))
    (hnumber : numberLiteral? ('-' :: cs) = none) (levels : Nat) :
    ofPlain (levels + 1) ('-' :: cs) = .negate (ofPlain levels cs) := by
  obtain ⟨hstrip, hcall, hname⟩ := symbol_cons_forms .subtract cs
  rw [BinaryOp.symbol] at hstrip hcall hname
  rw [ofPlain]
  simp only [htrimmed.trim_eq, hstrip, hcall, h.minus_cons.mainOperator?_eq_none, hnumber, hname,
    h.filled, Bool.false_eq_true, if_false]

/-- A plus is dropped where what follows binds as one. -/
theorem ofPlain_plus (h : IsOperand 4 cs) (htrimmed : IsTrimmed ('+' :: cs)) (levels : Nat) :
    ofPlain (levels + 1) ('+' :: cs) = ofPlain levels cs := by
  obtain ⟨hstrip, hcall, hname⟩ := symbol_cons_forms .add cs
  rw [BinaryOp.symbol] at hstrip hcall hname
  have hoperand : IsOperand 4 ('+' :: cs) := @IsOperand.sign_cons _ _ .add rfl h
  have hnumber : numberLiteral? ('+' :: cs) = none := by
    simp only [numberLiteral?, Numeral.read?, Numeral.takeSign, BEq.rfl, Bool.true_or, if_true]
    split
    all_goals
      cases Numeral.readExponent? _ with
      | none => rfl
      | some exponent => rfl
  rw [ofPlain]
  simp only [htrimmed.trim_eq, hstrip, hcall, hoperand.mainOperator?_eq_none, hnumber, hname,
    h.filled, Bool.false_eq_true, if_false]

/-- A minus before an operand in parentheses is read as a negation. -/
theorem ofPlain_negate (h : IsOperand level cs) (levels spaces : Nat) :
    ofPlain (levels + 2) ('-' :: List.replicate spaces ' ' ++ ('(' :: cs ++ [')'])) =
      .negate (ofPlain (levels + 1) cs) := by
  have hspaced := ofPlain_spaces_append (levels + 1) spaces ('(' :: cs ++ [')'])
  rw [ofPlain_enclosed h] at hspaced
  have htrimmed := isTrimmed_negation spaces cs
  rw [List.cons_append] at htrimmed ⊢
  rw [← hspaced]
  apply ofPlain_minus (h.parenthesised.spaces_append spaces) htrimmed
  cases spaces with
  | zero => exact numberLiteral?_minus_cons (by decide) (by decide) _
  | succ spaces => exact numberLiteral?_minus_cons (by decide) (by decide) _

end Operands

end FilterPipeline.Formula
