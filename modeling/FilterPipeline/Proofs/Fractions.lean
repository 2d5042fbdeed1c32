import FilterPipeline.Proofs.WrittenFormulas

/-!
# Fractions beside operators

A fraction is written out as a quotient of two parts in parentheses, without parentheses around the
quotient. Next to a plus or a minus that changes nothing; next to an operator that binds as tightly,
or more tightly, the quotient is taken apart. Main statement: a text with fractions is read as the
formula that it writes exactly when none of them is the right operand of a product or an operand of
a power.
-/

namespace FilterPipeline.Formula

open Text

/-! ### Writing out fractions -/

/-- A fraction with two parts in braces behind one of the commands. -/
def IsFractionOf (num den cs : List Char) : Prop :=
  ∃ command ∈ fractionCommands,
    cs = command.toList ++ ('\x7b' :: num ++ ['\x7d'] ++ ('\x7b' :: den ++ ['\x7d']))

/-- A quotient of two parts in parentheses. -/
def IsQuotientOf (num den cs : List Char) : Prop :=
  cs = '(' :: num ++ [')'] ++ '/' :: ('(' :: den ++ [')'])

/-- The texts of a formula of numbers, fields and operators. How a quotient of two texts is written
is given; every other operation is put in parentheses where it is an operand. -/
inductive FractionText (quotient : List Char → List Char → List Char → Prop) :
    (operand : Bool) → Formula → List Char → Prop
  | number (operand : Bool) {digits : List Char} (hne : digits ≠ [])
      (hdigits : digits.all Char.isDigit = true) :
      FractionText quotient operand (.number (.ofInt (Numeral.digitsValue digits))) digits
  | field (operand : Bool) {path : String} (h : isIdentifier path.toList = true) :
      FractionText quotient operand (.field path) path.toList
  | fraction (operand : Bool) {inNum inDen : Bool} {l r : Formula} {num den cs : List Char}
      (hnum : FractionText quotient inNum l num) (hden : FractionText quotient inDen r den)
      (h : quotient num den cs) : FractionText quotient operand (.binary .divide l r) cs
  | operation {op : BinaryOp} (hop : op ≠ .divide) (before after : Nat) {l r : Formula}
      {a b : List Char} (hl : FractionText quotient true l a)
      (hr : FractionText quotient true r b) :
      FractionText quotient false (.binary op l r)
        (a ++ List.replicate before ' ' ++ op.symbol :: (List.replicate after ' ' ++ b))
  | parenthesised {op : BinaryOp} (hop : op ≠ .divide) {l r : Formula} {cs : List Char}
      (h : FractionText quotient false (.binary op l r) cs) :
      FractionText quotient true (.binary op l r) ('(' :: cs ++ [')'])

/-- A character that begins no command is kept where fractions are written out. -/
theorem expandFractions_cons {c : Char} (hc : c ≠ '\\') (budget : Nat) (cs : List Char) :
    expandFractions budget (c :: cs) = c :: expandFractions budget cs := by
  cases budget with
  | zero => rfl
  | succ budget =>
    rw [expandFractions, replaceBy, replaceByAfter, fractionRule_eq_none hc]
    rfl

/-- Characters that begin no command are kept where fractions are written out. -/
theorem expandFractions_append {cs : List Char} (h : '\\' ∉ cs) (budget : Nat) (rest : List Char) :
    expandFractions budget (cs ++ rest) = cs ++ expandFractions budget rest := by
  induction cs with
  | nil => rfl
  | cons c cs ih =>
    rw [List.mem_cons, not_or] at h
    rw [List.cons_append, expandFractions_cons (Ne.symm h.1), ih h.2, List.cons_append]

private theorem bracedArgument?_enclosed {cs : List Char} (h : IsBalanced '\x7b' '\x7d' cs)
    (rest : List Char) :
    bracedArgument? ('\x7b' :: cs ++ ['\x7d'] ++ rest) = some (cs, cs.length + 2, rest) := by
  have hblank : isBlank '\x7b' = false := by decide
  have hclose := h.closingAt?_closing (by decide) rest
  rw [List.append_assoc, List.cons_append, List.singleton_append, bracedArgument?,
    List.dropWhile_cons, List.takeWhile_cons, hblank]
  simp only [Bool.false_eq_true, if_false, splitClose_eq, hclose, Option.map_some, List.reverse_nil,
    List.nil_append, List.take_left, List.drop_length_add_append, Option.bind_eq_bind,
    Option.bind_some, List.length_nil, Nat.zero_add]
  simp

private theorem replaceBy_of_eq_some {rule : Rule} {cs : List Char} {r : Replacement}
    (hne : cs ≠ []) (hpos : 0 < r.consumed) (h : rule cs = some r) :
    replaceBy rule cs = r.written ++ replaceBy rule (cs.drop r.consumed) := by
  cases cs with
  | nil => exact absurd rfl hne
  | cons c cs =>
    obtain ⟨n, hn⟩ : ∃ n, r.consumed = n + 1 := ⟨r.consumed - 1, by omega⟩
    rw [replaceBy, replaceByAfter, h]
    dsimp only
    rw [replaceByAfter_eq_drop, hn, Nat.add_sub_cancel, List.drop_succ_cons]

private theorem findSome?_command {command : String} (h : command ∈ fractionCommands)
    (rest : List Char) :
    fractionCommands.findSome?
        (fun c ↦ (afterStart? c.toList (command.toList ++ rest)).map (c, ·)) =
      some (command, rest) := by
  simp only [fractionCommands, List.mem_cons, List.not_mem_nil, or_false] at h
  rcases h with rfl | rfl | rfl
  · rfl
  · rfl
  · rfl

private theorem expandFractions_fraction {num den cs : List Char} (h : IsFractionOf num den cs)
    (hnum : IsBalanced '\x7b' '\x7d' num) (hden : IsBalanced '\x7b' '\x7d' den) (budget : Nat)
    (rest : List Char) :
    expandFractions (budget + 1) (cs ++ rest) =
      '(' :: expandFractions budget num ++ [')'] ++
        '/' :: ('(' :: expandFractions budget den ++ [')']) ++
          expandFractions (budget + 1) rest := by
  obtain ⟨command, hcommand, rfl⟩ := h
  generalize htext : command.toList ++ ('\x7b' :: num ++ ['\x7d'] ++ ('\x7b' :: den ++ ['\x7d'])) ++
    rest = text
  have hrule : fractionRule (expandFractions budget) text =
      some ⟨'(' :: expandFractions budget num ++ ")/(".toList ++
          expandFractions budget den ++ [')'],
        command.length + (num.length + 2) + (den.length + 2)⟩ := by
    rw [← htext, List.append_assoc, fractionRule, findSome?_command hcommand]
    simp only [Option.bind_eq_bind, Option.bind_some]
    rw [List.append_assoc, bracedArgument?_enclosed hnum]
    simp only [Option.bind_some]
    rw [bracedArgument?_enclosed hden]
    rfl
  have hdrop : text.drop (command.length + (num.length + 2) + (den.length + 2)) = rest := by
    rw [← htext]
    apply List.drop_left'
    simp only [List.length_append, List.length_cons, List.length_nil, String.length_toList]
    omega
  have hne : text ≠ [] := by
    rw [← htext]
    simp
  rw [expandFractions, replaceBy_of_eq_some hne (by dsimp only; omega) hrule, hdrop]
  simp [expandFractions]

namespace FractionText

variable {operand : Bool} {t : Formula} {cs : List Char}

private theorem isBalanced (h : FractionText IsFractionOf operand t cs) :
    IsBalanced '\x7b' '\x7d' cs := by
  have hplain : ∀ {cs : List Char}, (∀ c ∈ cs, isPlainChar c = true) →
      IsBalanced '\x7b' '\x7d' cs := by
    intro cs hcs
    apply IsBalanced.of_forall
    intro c hc
    constructor
    · rintro rfl
      exact absurd (hcs _ hc) (by decide)
    · rintro rfl
      exact absurd (hcs _ hc) (by decide)
  have hspaces : ∀ n : Nat, ∀ c ∈ List.replicate n ' ', isPlainChar c = true := by
    intro n c hc
    rw [List.eq_of_mem_replicate hc]
    decide
  induction h with
  | number _ hne hdigits => exact hplain (Written.whole hne hdigits).isOperand.plain
  | field _ h => exact hplain (Written.path h).isOperand.plain
  | fraction _ _ _ h ihnum ihden =>
    obtain ⟨command, hcommand, rfl⟩ := h
    have hletters : command.toList.all (fun c ↦ c != '\x7b' && c != '\x7d') = true := by
      revert hcommand
      revert command
      decide
    have hcommandPlain : ∀ c ∈ command.toList, c ≠ '\x7b' ∧ c ≠ '\x7d' := by
      intro c hc
      have hboth := List.all_eq_true.mp hletters c hc
      rw [Bool.and_eq_true, bne_iff_ne, bne_iff_ne] at hboth
      exact hboth
    exact .append (.of_forall hcommandPlain) (.append ihnum.enclosed ihden.enclosed)
  | @operation op hop before after l r a b _ _ ihl ihr =>
    have hsymbol : ∀ c ∈ [op.symbol], isPlainChar c = true := by
      rw [List.forall_mem_singleton]
      cases op <;> decide
    exact .append (.append ihl (hplain (hspaces before)))
      (.append (hplain hsymbol) (.append (hplain (hspaces after)) ihr))
  | parenthesised _ _ ih =>
    exact .append (.append (.char (by decide) (by decide)) ih) (.char (by decide) (by decide))

/-- Writing out the fractions of a text leaves a text of the same formula in which quotients are
written out. As many passes are enough as the formula's depth allows. -/
theorem exists_expansion (h : FractionText IsFractionOf operand t cs) {budget : Nat}
    (hdepth : t.depth ≤ budget + 1) :
    ∃ plain, FractionText IsQuotientOf operand t plain ∧
      ∀ rest, expandFractions budget (cs ++ rest) = plain ++ expandFractions budget rest := by
  have hplain : ∀ {cs : List Char}, (∀ c ∈ cs, isPlainChar c = true) → ∀ budget rest,
      expandFractions budget (cs ++ rest) = cs ++ expandFractions budget rest := by
    intro cs hcs
    exact expandFractions_append (not_mem_of_plain hcs (by decide))
  induction h generalizing budget with
  | number operand hne hdigits =>
    have hwritten := Written.whole hne hdigits
    exact ⟨_, .number operand hne hdigits, hplain hwritten.isOperand.plain budget⟩
  | field operand h => exact ⟨_, .field operand h, hplain (Written.path h).isOperand.plain budget⟩
  | @fraction operand _ _ l r num den cs hnum hden h ihnum ihden =>
    rw [depth] at hdepth
    have hpos := l.depth_pos
    obtain ⟨budget, rfl⟩ : ∃ k, budget = k + 1 := ⟨budget - 1, by omega⟩
    have hleft : l.depth ≤ budget + 1 := by omega
    have hright : r.depth ≤ budget + 1 := by omega
    obtain ⟨num', hnum', hexpandNum⟩ := ihnum hleft
    obtain ⟨den', hden', hexpandDen⟩ := ihden hright
    refine ⟨_, .fraction operand hnum' hden' rfl, fun rest ↦ ?_⟩
    have hnil : expandFractions budget [] = [] := by
      cases budget <;> rfl
    have hnumAlone := hexpandNum []
    have hdenAlone := hexpandDen []
    rw [hnil, List.append_nil, List.append_nil] at hnumAlone hdenAlone
    rw [expandFractions_fraction h hnum.isBalanced hden.isBalanced, hnumAlone, hdenAlone]
  | @operation op hop before after l r a b hl hr ihl ihr =>
    rw [depth] at hdepth
    have hleft : l.depth ≤ budget + 1 := by omega
    have hright : r.depth ≤ budget + 1 := by omega
    obtain ⟨a', ha', hexpandLeft⟩ := ihl hleft
    obtain ⟨b', hb', hexpandRight⟩ := ihr hright
    refine ⟨_, .operation hop before after ha' hb', fun rest ↦ ?_⟩
    have hmiddle : '\\' ∉ List.replicate before ' ' ++ op.symbol :: List.replicate after ' ' := by
      simp only [List.mem_append, List.mem_cons, List.mem_replicate, not_or]
      cases op <;> simp [BinaryOp.symbol]
    have htext : ∀ a b rest : List Char,
        a ++ List.replicate before ' ' ++ op.symbol :: (List.replicate after ' ' ++ b) ++ rest =
          a ++ ((List.replicate before ' ' ++ op.symbol :: List.replicate after ' ') ++
            (b ++ rest)) := by
      intro a b rest
      simp
    rw [htext, hexpandLeft, expandFractions_append hmiddle, hexpandRight, htext]
  | @parenthesised op hop l r cs h ih =>
    obtain ⟨plain, hplain', hexpand⟩ := ih hdepth
    refine ⟨_, .parenthesised hop hplain', fun rest ↦ ?_⟩
    have htext : ∀ cs rest : List Char,
        '(' :: cs ++ [')'] ++ rest = '(' :: (cs ++ ')' :: rest) := by
      intro cs rest
      simp
    rw [htext, expandFractions_cons (by decide), hexpand, expandFractions_cons (by decide), htext]

/-- Shrinking blanks leaves a text of the same formula. -/
theorem collapseBlanks (h : FractionText IsQuotientOf operand t cs) (afterBlank : Bool) :
    FractionText IsQuotientOf operand t (collapseBlanks afterBlank cs) := by
  have henclosed : ∀ (afterBlank : Bool) (cs : List Char),
      Formula.collapseBlanks afterBlank ('(' :: cs ++ [')']) =
        '(' :: Formula.collapseBlanks false cs ++ [')'] := by
    intro afterBlank cs
    exact collapseBlanks_enclosed [] cs afterBlank
  induction h generalizing afterBlank with
  | number operand hne hdigits =>
    rw [collapseBlanks_eq_self]
    · exact .number operand hne hdigits
    · intro c hc
      apply not_isBlank_of_isIdentifierChar
      exact isIdentifierChar_of_isDigit (List.all_eq_true.mp hdigits c hc)
  | field operand h =>
    rw [collapseBlanks_eq_self]
    · exact .field operand h
    · exact fun c hc ↦ not_isBlank_of_isIdentifierChar (isIdentifierChar_of_isIdentifier h c hc)
  | fraction operand _ _ h ihnum ihden =>
    subst h
    rw [collapseBlanks_append_cons (by decide), henclosed, henclosed]
    exact .fraction operand (ihnum false) (ihden false) rfl
  | @operation op hop before after l r a b _ _ ihl ihr =>
    have hsymbol : isBlank op.symbol = false := by cases op <;> decide
    obtain ⟨m, hleft⟩ := collapseBlanks_append_spaces a before afterBlank
    obtain ⟨n, later, hright⟩ := collapseBlanks_spaces_append after b false
    rw [collapseBlanks_append_cons hsymbol, hleft, hright]
    exact .operation hop m n (ihl afterBlank) (ihr later)
  | parenthesised hop _ ih =>
    rw [henclosed]
    exact .parenthesised hop (ih false)

end FractionText

/-! ### Quotients beside operators -/

/-- Whether a formula is a quotient. -/
def isQuotient : Formula → Bool
  | .binary .divide _ _ => true
  | _ => false

/-- No fraction is the right operand of a product or an operand of a power. -/
def FractionsApart : Formula → Prop
  | .number _ | .field _ => True
  | .binary op l r =>
    (op = .multiply → r.isQuotient = false) ∧
      (op = .power → l.isQuotient = false ∧ r.isQuotient = false) ∧
        l.FractionsApart ∧ r.FractionsApart
  | .call _ arg | .negate arg => arg.FractionsApart

/-- A quotient of two operands is read as the quotient of what they are read as. -/
theorem ofPlain_quotient {x y : List Char} {p q : Nat} (levels : Nat)
    (hadmits : BinaryOp.divide.Admits p q) (hx : IsOperand p x) (hy : IsOperand q y)
    (htrimmed : IsTrimmed (x ++ '/' :: y)) :
    ofPlain (levels + 1) (x ++ '/' :: y) =
      .binary .divide (ofPlain levels x) (ofPlain levels y) :=
  @ofPlain_binary .divide p q x y levels hadmits hx hy htrimmed

/-- The text of an operand: one that binds as one, or a quotient of two such texts. -/
inductive IsFactor : (quotient : Bool) → List Char → Prop
  | single {cs : List Char} (h : IsOperand 4 cs) : IsFactor false cs
  | quotient {a b : List Char} (ha : IsOperand 4 a) (hb : IsOperand 4 b) :
      IsFactor true (a ++ '/' :: b)

namespace IsFactor

variable {p q : Bool} {a b : List Char}

/-- How tightly the text of an operand binds. -/
def level (quotient : Bool) : Nat := if quotient then 2 else 4

/-- The text of an operand is one of its level. -/
theorem isOperand (h : IsFactor p a) : IsOperand (level p) a := by
  cases h with
  | single h => exact h
  | quotient ha hb => exact @IsOperand.binary .divide 4 4 _ _ (by decide) ha hb

/-- Spaces may stand behind the text of an operand. -/
theorem append_spaces (h : IsFactor p a) (n : Nat) : IsFactor p (a ++ List.replicate n ' ') := by
  have hspaced : ∀ {cs : List Char}, IsOperand 4 cs → IsOperand 4 (cs ++ List.replicate n ' ') := by
    intro cs hcs
    exact hcs.spaced 0 n
  cases h with
  | single h => exact .single (hspaced h)
  | quotient ha hb =>
    rw [List.append_assoc, List.cons_append]
    exact .quotient ha (hspaced hb)

/-- Spaces may stand before the text of an operand. -/
theorem spaces_append (h : IsFactor p a) (n : Nat) : IsFactor p (List.replicate n ' ' ++ a) := by
  have hspaced : ∀ {cs : List Char}, IsOperand 4 cs → IsOperand 4 (List.replicate n ' ' ++ cs) := by
    intro cs hcs
    have hboth := hcs.spaced n 0
    rw [List.replicate_zero, List.append_nil] at hboth
    exact hboth
  cases h with
  | single h => exact .single (hspaced h)
  | quotient ha hb =>
    rw [← List.append_assoc]
    exact .quotient (hspaced ha) hb

/-- An operator that is no division takes two operands unless one of them is a quotient that it
takes apart. -/
theorem admits_iff {op : BinaryOp} (hop : op ≠ .divide) (p q : Bool) :
    op.Admits (level p) (level q) ↔
      (op = .multiply → q = false) ∧ (op = .power → p = false ∧ q = false) := by
  cases op with
  | divide => exact absurd rfl hop
  | add | subtract | multiply | power => cases p <;> cases q <;> decide

/-- Where an operator does not take two operands, the text is the quotient of two others. -/
theorem exists_quotient {op : BinaryOp} (hop : op ≠ .divide)
    (hadmits : ¬ op.Admits (level p) (level q)) (ha : IsFactor p a) (hb : IsFactor q b) :
    ∃ x y left right, a ++ op.symbol :: b = x ++ '/' :: y ∧
      BinaryOp.divide.Admits left right ∧ IsOperand left x ∧ IsOperand right y := by
  have hleft := ha.isOperand
  cases op with
  | add => exact absurd (by cases p <;> cases q <;> decide) hadmits
  | subtract => exact absurd (by cases p <;> cases q <;> decide) hadmits
  | divide => exact absurd rfl hop
  | multiply =>
    cases hb with
    | single _ => exact absurd (by cases p <;> decide) hadmits
    | @quotient num den hnum hden =>
      -- The product with the numerator is divided by the denominator.
      have hproduct : IsOperand 2 (a ++ '*' :: num) :=
        @IsOperand.binary .multiply (level p) 4 _ _ (by cases p <;> decide) hleft hnum
      exact ⟨a ++ '*' :: num, den, 2, 4, by simp [BinaryOp.symbol], by decide, hproduct, hden⟩
  | power =>
    cases hb with
    | @quotient num den hnum hden =>
      -- What stands before the division line of the exponent is divided by its denominator.
      cases ha with
      | single ha =>
        have hpower : IsOperand 3 (a ++ '^' :: num) :=
          @IsOperand.binary .power 4 4 _ _ (by decide) ha hnum
        exact ⟨a ++ '^' :: num, den, 3, 4, by simp [BinaryOp.symbol], by decide, hpower, hden⟩
      | @quotient num' den' hnum' hden' =>
        have hpower : IsOperand 3 (den' ++ '^' :: num) :=
          @IsOperand.binary .power 4 4 _ _ (by decide) hden' hnum
        have hinner : IsOperand 2 (num' ++ '/' :: (den' ++ '^' :: num)) :=
          @IsOperand.binary .divide 4 3 _ _ (by decide) hnum' hpower
        exact ⟨num' ++ '/' :: (den' ++ '^' :: num), den, 2, 4, by simp [BinaryOp.symbol], by decide,
          hinner, hden⟩
    | single hb =>
      cases ha with
      | single _ => exact absurd (by decide) hadmits
      | @quotient num' den' hnum' hden' =>
        -- The numerator of the base is divided by the power of its denominator.
        have hpower : IsOperand 3 (den' ++ '^' :: b) :=
          @IsOperand.binary .power 4 4 _ _ (by decide) hden' hb
        exact ⟨num', den' ++ '^' :: b, 4, 3, by simp [BinaryOp.symbol], by decide, hnum', hpower⟩

/-- A text is read as the operation of an operator on two operands exactly when the operator takes
them; otherwise it is read as a quotient. -/
theorem ofPlain_eq_binary_iff {op : BinaryOp} (hop : op ≠ .divide) (ha : IsFactor p a)
    (hb : IsFactor q b) (htrimmed : IsTrimmed (a ++ op.symbol :: b)) (levels : Nat)
    (l r : Formula) :
    ofPlain (levels + 1) (a ++ op.symbol :: b) = .binary op l r ↔
      op.Admits (level p) (level q) ∧ ofPlain levels a = l ∧ ofPlain levels b = r := by
  by_cases hadmits : op.Admits (level p) (level q)
  · rw [ofPlain_binary levels hadmits ha.isOperand hb.isOperand htrimmed, binary.injEq]
    simp [hadmits]
  · obtain ⟨x, y, p', q', htext, hdivide, hx, hy⟩ := ha.exists_quotient hop hadmits hb
    rw [htext] at htrimmed ⊢
    rw [ofPlain_quotient levels hdivide hx hy htrimmed, binary.injEq]
    constructor
    · intro heq
      exact absurd heq.1.symm hop
    · intro hall
      exact absurd hall.1 hadmits

end IsFactor

namespace FractionText

variable {operand : Bool} {t : Formula} {cs : List Char}

/-- What the text of an operand is, and that any text neither begins nor ends with a blank and can
stand in parentheses. -/
theorem lexical (h : FractionText IsQuotientOf operand t cs) :
    IsTrimmed cs ∧ (∃ level, IsOperand level cs) ∧
      (operand = true → IsFactor t.isQuotient cs) := by
  induction h with
  | number operand hne hdigits =>
    have hoperand := (Written.whole hne hdigits).isOperand
    refine ⟨.of_forall fun c hc ↦ ?_, ⟨4, hoperand⟩, fun _ ↦ .single hoperand⟩
    apply not_isBlank_of_isIdentifierChar
    exact isIdentifierChar_of_isDigit (List.all_eq_true.mp hdigits c hc)
  | field operand h =>
    have hoperand := isOperand_of_isIdentifier h
    refine ⟨.of_forall fun c hc ↦ ?_, ⟨4, hoperand⟩, fun _ ↦ .single hoperand⟩
    exact not_isBlank_of_isIdentifierChar (isIdentifierChar_of_isIdentifier h c hc)
  | @fraction operand _ _ l r num den cs _ _ h ihnum ihden =>
    subst h
    obtain ⟨-, ⟨p, hnum⟩, -⟩ := ihnum
    obtain ⟨-, ⟨q, hden⟩, -⟩ := ihden
    have hfactor : IsFactor true ('(' :: num ++ [')'] ++ '/' :: ('(' :: den ++ [')'])) :=
      .quotient hnum.parenthesised hden.parenthesised
    have htrimmed : IsTrimmed ('(' :: num ++ [')'] ++ '/' :: ('(' :: den ++ [')'])) := by
      rw [← List.cons_append, ← List.append_assoc]
      exact .of_ends (by decide) (by decide) _
    exact ⟨htrimmed, ⟨2, hfactor.isOperand⟩, fun _ ↦ hfactor⟩
  | @operation op hop before after l r a b _ _ ihl ihr =>
    obtain ⟨hatrimmed, -, ha⟩ := ihl
    obtain ⟨hbtrimmed, -, hb⟩ := ihr
    have hleft := (ha rfl).append_spaces before
    have hright := (hb rfl).spaces_append after
    refine ⟨(ha rfl).isOperand.isTrimmed (hb rfl).isOperand hatrimmed hbtrimmed before after, ?_,
      by simp⟩
    by_cases hadmits : op.Admits (IsFactor.level l.isQuotient) (IsFactor.level r.isQuotient)
    · exact ⟨_, .binary hadmits hleft.isOperand hright.isOperand⟩
    · obtain ⟨x, y, p, q, htext, hdivide, hx, hy⟩ := hleft.exists_quotient hop hadmits hright
      rw [htext]
      exact ⟨_, @IsOperand.binary .divide p q x y hdivide hx hy⟩
  | @parenthesised op hop l r _ _ ih =>
    obtain ⟨-, ⟨level, hinner⟩, -⟩ := ih
    refine ⟨.of_ends (by decide) (by decide) _, ⟨4, hinner.parenthesised⟩, fun _ ↦ ?_⟩
    have hsingle : isQuotient (.binary op l r) = false := by
      cases op with
      | divide => exact absurd rfl hop
      | add | subtract | multiply | power => rfl
    rw [hsingle]
    exact .single hinner.parenthesised

/-- A text in which quotients are written out is read as its formula exactly when none of them is
taken apart by an operator beside it. -/
theorem ofPlain_eq_iff (h : FractionText IsQuotientOf operand t cs) {levels : Nat}
    (hdepth : t.depth ≤ levels) : ofPlain levels cs = t ↔ t.FractionsApart := by
  obtain ⟨levels, rfl⟩ := exists_eq_succ_of_depth_le hdepth
  induction h generalizing levels with
  | number operand hne hdigits =>
    rw [(Written.whole hne hdigits).ofPlain_eq hdepth]
    simp [FractionsApart]
  | field operand h =>
    rw [(Written.path h).ofPlain_eq hdepth]
    simp [FractionsApart]
  | @fraction operand _ _ l r num den cs hnum hden h ihnum ihden =>
    obtain ⟨htrimmed, -⟩ := (FractionText.fraction operand hnum hden h).lexical
    obtain ⟨-, ⟨p, hnumOperand⟩, -⟩ := hnum.lexical
    obtain ⟨-, ⟨q, hdenOperand⟩, -⟩ := hden.lexical
    subst h
    rw [depth] at hdepth
    have hleft : l.depth ≤ levels := by omega
    have hright : r.depth ≤ levels := by omega
    obtain ⟨levels, rfl⟩ := exists_eq_succ_of_depth_le hleft
    rw [ofPlain_quotient (levels + 1) (by decide) hnumOperand.parenthesised
      hdenOperand.parenthesised htrimmed, ofPlain_enclosed hnumOperand,
      ofPlain_enclosed hdenOperand]
    have hnumIff := ihnum levels hleft
    have hdenIff := ihden levels hright
    simp [FractionsApart, hnumIff, hdenIff]
  | @operation op hop before after l r a b hl hr ihl ihr =>
    obtain ⟨htrimmed, -⟩ := (FractionText.operation hop before after hl hr).lexical
    obtain ⟨-, -, hleftFactor⟩ := hl.lexical
    obtain ⟨-, -, hrightFactor⟩ := hr.lexical
    have hleftSpaced := (hleftFactor rfl).append_spaces before
    have hrightSpaced := (hrightFactor rfl).spaces_append after
    rw [depth] at hdepth
    have hleft : l.depth ≤ levels := by omega
    have hright : r.depth ≤ levels := by omega
    obtain ⟨levels, rfl⟩ := exists_eq_succ_of_depth_le hleft
    rw [hleftSpaced.ofPlain_eq_binary_iff hop hrightSpaced htrimmed, ofPlain_append_spaces,
      ofPlain_spaces_append, ihl levels hleft, ihr levels hright, IsFactor.admits_iff hop,
      FractionsApart, and_assoc]
  | parenthesised hop h ih =>
    obtain ⟨-, ⟨level, hoperand⟩, -⟩ := h.lexical
    rw [ofPlain_enclosed hoperand]
    exact ih levels hdepth

end FractionText

/-- A text with fractions is read as the formula that it writes exactly when no fraction is the
right operand of a product or an operand of a power. -/
theorem parseWithin_eq_iff_fractionsApart {operand : Bool} {t : Formula} {s : String} {limit : Nat}
    (h : FractionText IsFractionOf operand t s.toList) (hdepth : t.depth ≤ limit + 1) :
    parseWithin limit s = t ↔ t.FractionsApart := by
  obtain ⟨plain, hplain, hexpand⟩ := h.exists_expansion hdepth
  obtain ⟨-, ⟨level, hoperand⟩, -⟩ := hplain.lexical
  have hwhole : expandFractions limit s.toList = plain := by
    have hnil : expandFractions limit [] = [] := by
      cases limit <;> rfl
    have hall := hexpand []
    rw [hnil, List.append_nil, List.append_nil] at hall
    exact hall
  rw [parseWithin, cleanWithin_of_plain hwhole hoperand.plain, ofPlain_trim]
  exact (hplain.collapseBlanks false).ofPlain_eq_iff hdepth

/-- A difference of two fractions, with fractions in a numerator and a denominator. -/
def nestedFractions : Formula :=
  .binary .subtract
    (.binary .divide (.binary .divide (.field "a") (.number (.ofInt 2)))
      (.binary .multiply (.binary .divide (.field "b") (.field "c")) (.field "d")))
    (.binary .divide (.field "e") (.field "a"))

/-- The difference in the notation for fractions, each written with another command. -/
def nestedFractionsText : String :=
  "\\frac\x7b\\dfrac\x7ba\x7d\x7b2\x7d\x7d\x7b\\tfrac\x7bb\x7d\x7bc\x7d*d\x7d - " ++
    "\\frac\x7be\x7d\x7ba\x7d"

/-- Fractions that stand apart are read as they are written, within the limit that the depth
allows. -/
theorem nestedFractions_read :
    FractionText IsFractionOf false nestedFractions nestedFractionsText.toList ∧
      nestedFractions.depth = 5 ∧ nestedFractions.FractionsApart ∧
        parseWithin 4 nestedFractionsText = nestedFractions := by
  have ha : FractionText IsFractionOf false (.field "a") ['a'] := .field false (by decide)
  have hb : FractionText IsFractionOf false (.field "b") ['b'] := .field false (by decide)
  have hc : FractionText IsFractionOf false (.field "c") ['c'] := .field false (by decide)
  have hd : FractionText IsFractionOf true (.field "d") ['d'] := .field true (by decide)
  have he : FractionText IsFractionOf false (.field "e") ['e'] := .field false (by decide)
  have htwo : FractionText IsFractionOf false (.number (.ofInt 2)) ['2'] :=
    @FractionText.number IsFractionOf false ['2'] (by decide) (by decide)
  have hhalf : FractionText IsFractionOf false (.binary .divide (.field "a") (.number (.ofInt 2)))
      "\\dfrac\x7ba\x7d\x7b2\x7d".toList :=
    .fraction false ha htwo ⟨"\\dfrac", by decide, by decide⟩
  have hratio : FractionText IsFractionOf true (.binary .divide (.field "b") (.field "c"))
      "\\tfrac\x7bb\x7d\x7bc\x7d".toList :=
    .fraction true hb hc ⟨"\\tfrac", by decide, by decide⟩
  have hproduct : FractionText IsFractionOf false
      (.binary .multiply (.binary .divide (.field "b") (.field "c")) (.field "d"))
      "\\tfrac\x7bb\x7d\x7bc\x7d*d".toList :=
    .operation (by decide) 0 0 hratio hd
  have hleft : FractionText IsFractionOf true
      (.binary .divide (.binary .divide (.field "a") (.number (.ofInt 2)))
        (.binary .multiply (.binary .divide (.field "b") (.field "c")) (.field "d")))
      "\\frac\x7b\\dfrac\x7ba\x7d\x7b2\x7d\x7d\x7b\\tfrac\x7bb\x7d\x7bc\x7d*d\x7d".toList :=
    .fraction true hhalf hproduct ⟨"\\frac", by decide, by decide⟩
  have hright : FractionText IsFractionOf true (.binary .divide (.field "e") (.field "a"))
      "\\frac\x7be\x7d\x7ba\x7d".toList :=
    .fraction true he ha ⟨"\\frac", by decide, by decide⟩
  have htext : FractionText IsFractionOf false nestedFractions nestedFractionsText.toList :=
    .operation (by decide) 1 1 hleft hright
  have hapart : nestedFractions.FractionsApart := by
    simp [nestedFractions, FractionsApart, isQuotient]
  exact ⟨htext, by decide, hapart, (parseWithin_eq_iff_fractionsApart htext (by decide)).mpr hapart⟩

/-- The square of a fraction. -/
def squaredFraction : Formula :=
  .binary .power (.binary .divide (.field "a") (.field "b")) (.number (.ofInt 2))

/-- The square of a fraction is read as a quotient by a square, though the limit is large enough. -/
theorem squaredFraction_misread :
    FractionText IsFractionOf false squaredFraction "\\frac\x7ba\x7d\x7bb\x7d^2".toList ∧
      squaredFraction.depth ≤ 10 + 1 ∧
        parseWithin 10 "\\frac\x7ba\x7d\x7bb\x7d^2" =
          .binary .divide (.field "a") (.binary .power (.field "b") (.number (.ofInt 2))) ∧
            parseWithin 10 "\\frac\x7ba\x7d\x7bb\x7d^2" ≠ squaredFraction := by
  have ha : FractionText IsFractionOf false (.field "a") ['a'] := .field false (by decide)
  have hb : FractionText IsFractionOf false (.field "b") ['b'] := .field false (by decide)
  have htwo : FractionText IsFractionOf true (.number (.ofInt 2)) ['2'] :=
    @FractionText.number IsFractionOf true ['2'] (by decide) (by decide)
  have hfraction : FractionText IsFractionOf true (.binary .divide (.field "a") (.field "b"))
      "\\frac\x7ba\x7d\x7bb\x7d".toList :=
    .fraction true ha hb ⟨"\\frac", by decide, by decide⟩
  have hread : parseWithin 10 "\\frac\x7ba\x7d\x7bb\x7d^2" =
      .binary .divide (.field "a") (.binary .power (.field "b") (.number (.ofInt 2))) := by
    decide +kernel
  refine ⟨?_, by decide, hread, ?_⟩
  · exact .operation (by decide) 0 0 hfraction htwo
  · rw [hread]
    decide

end FilterPipeline.Formula
