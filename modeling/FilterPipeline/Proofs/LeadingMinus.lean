import FilterPipeline.Proofs.InfixFormulas

/-!
# A minus before a term

A sign is no operator for the search for a place to split at, so a minus in front ends up at the
first operand that the splits leave. In products and quotients that negates the whole term; in a
power the base is negated, and the exponent decides. Main statement: a minus in front negates the
value of a term as often as the exponent of its first factor counts.
-/

namespace FilterPipeline

/-! ### Values -/

namespace Double

/-- The rational number that a finite value is. -/
def toRat? : Double → Option ℚ
  | finite negative m q => some ((if negative then -1 else 1) * m * 2 ^ q)
  | infinite _ | nan => none

/-- Rounding takes opposite numbers to opposite values. -/
theorem toRat?_round_true (num den : Nat) :
    (round true num den).toRat? = (round false num den).toRat?.map (-·) := by
  have hscaled : ∀ (m : Nat) (q : Int),
      (ofScaled true m q).toRat? = (ofScaled false m q).toRat?.map (-·) := by
    intro m q
    rw [ofScaled, ofScaled]
    split
    · simp [toRat?]
    · simp [toRat?]
  rw [round, round]
  split
  · simp [zero, toRat?]
  · dsimp only
    split
    · rfl
    · exact hscaled _ _

private theorem toRat?_ofDecimal_true (coefficient : Nat) (exponent : Int) :
    (ofDecimal true coefficient exponent).toRat? =
      (ofDecimal false coefficient exponent).toRat?.map (-·) := by
  have hzero : (zero true).toRat? = (zero false).toRat?.map (-·) := by simp [zero, toRat?]
  rw [ofDecimal, ofDecimal]
  split
  · exact hzero
  · split
    · rfl
    · split
      · exact hzero
      · exact toRat?_round_true _ _

end Double

/-- The value of an operation on rational numbers: no divisor is zero and every exponent is a
natural number. -/
def BinaryOp.result? : BinaryOp → ℚ → ℚ → Option ℚ
  | add, x, y => some (x + y)
  | subtract, x, y => some (x - y)
  | multiply, x, y => some (x * y)
  | divide, x, y => if y = 0 then none else some (x / y)
  | power, x, y => if y = y.num.toNat then some (x ^ y.num.toNat) else none

namespace Formula

/-- The value of a formula without calls where its fields are rational numbers. -/
def value? (fields : String → ℚ) : Formula → Option ℚ
  | number x => x.toRat?
  | field path => some (fields path)
  | binary op left right => do op.result? (← left.value? fields) (← right.value? fields)
  | call _ _ => none
  | negate arg => (arg.value? fields).map (-·)

/-- Whether a number is what the first factor is raised to: the value of its exponent, or one where
it is no power. -/
def IsLeadExponent (fields : String → ℚ) : (lead : Option Formula) → ℕ → Prop
  | none, n => n = 1
  | some exponent, n => exponent.value? fields = some (n : ℚ)

/-! ### A minus in front -/

namespace Infix

variable {level : Nat} {lead : Option Formula} {t : Formula} {cs : List Char}

private theorem lead_eq_none (h : Infix level lead t cs) (hlevel : 4 ≤ level) : lead = none := by
  cases h with
  | number h => rfl
  | field h => rfl
  | parenthesised before after h => rfl
  | minus spaces h hfirst => rfl
  | plus spaces h => rfl
  | @binary op before after p q hadmits lead other l r a b hl hr =>
    have hprecedence := op.precedence_le
    omega

/-- A text whose main operator is neither plus nor minus binds as tightly as a product. -/
theorem two_le_level (h : Infix level lead t cs)
    (hmain : ∀ place, mainOperator? cs = some place → place.op.isSign = false) : 2 ≤ level := by
  cases h with
  | number h => decide
  | field h => decide
  | parenthesised before after h => decide
  | minus spaces h hfirst => decide
  | plus spaces h => decide
  | @binary op before after p q hadmits lead other l r a b hl hr =>
    have hsign := hmain _ ((hl.isOperand.append_spaces before).mainOperator? hadmits
      (hr.isOperand.spaces_append after))
    cases op with
    | add => cases hsign
    | subtract => cases hsign
    | multiply => decide
    | divide => decide
    | power => decide

/-- A minus before a text that binds as one and does not begin with a digit negates it. -/
theorem exists_minus_of_first (h : Infix 4 none t cs)
    (hfirst : ∀ c, cs.head? = some c → c.isDigit = false ∧ c ≠ '.') :
    ∃ s, Infix 4 none s ('-' :: cs) ∧ ∀ fields v, t.value? fields = some v →
      ∃ n, IsLeadExponent fields none n ∧ s.value? fields = some ((-1) ^ n * v) := by
  refine ⟨.negate t, .minus 0 h hfirst, fun fields v hv ↦ ⟨1, rfl, ?_⟩⟩
  rw [value?, hv]
  simp

private theorem exists_minus_number {n : Numeral} (h : n.IsPlain) :
    ∃ s, Infix 4 none s ('-' :: n.plainText) ∧ ∀ fields v,
      (Formula.number n.toDouble).value? fields = some v →
        ∃ k, IsLeadExponent fields none k ∧ s.value? fields = some ((-1) ^ k * v) := by
  rcases h.sign with hnone | hminus
  · have hplain : (Numeral.mk (some '-') n.whole n.fraction n.exponent).IsPlain :=
      ⟨.inr rfl, h.whole, h.wholeDigits, h.fraction, h.exponent⟩
    have htext : '-' :: n.plainText =
        (Numeral.mk (some '-') n.whole n.fraction n.exponent).plainText := by
      rw [Numeral.plainText, hnone]
      rfl
    have hpositive : n.isNegative = false := by
      rw [Numeral.isNegative, hnone]
      rfl
    rw [htext]
    refine ⟨_, .number hplain, fun fields v hv ↦ ⟨1, rfl, ?_⟩⟩
    rw [value?, Numeral.toDouble, hpositive] at hv
    have hvalue : (Numeral.mk (some '-') n.whole n.fraction n.exponent).toDouble.toRat? =
        (Double.ofDecimal false n.coefficient n.scale).toRat?.map (-·) :=
      Double.toRat?_ofDecimal_true n.coefficient n.scale
    rw [value?, hvalue, hv]
    simp
  · apply exists_minus_of_first (.number h)
    rw [Numeral.plainText, hminus]
    rintro _ ⟨⟩
    decide

/-- A minus before a term is again a text in infix notation, whose value is that of the term,
negated as often as the exponent of the first factor counts. -/
theorem exists_minus (h : Infix level lead t cs) (hlevel : 2 ≤ level) :
    ∃ s, Infix level lead s ('-' :: cs) ∧ ∀ fields v, t.value? fields = some v →
      ∃ n, IsLeadExponent fields lead n ∧ s.value? fields = some ((-1) ^ n * v) := by
  induction h with
  | number h => exact exists_minus_number h
  | @field cs h =>
    apply exists_minus_of_first (.field h)
    intro c hc
    cases cs with
    | nil => cases hc
    | cons d cs =>
      obtain rfl := Option.some.inj hc
      rw [isIdentifier, Bool.and_eq_true, isIdentifierStart, Bool.or_eq_true, beq_iff_eq] at h
      rcases h.1 with hletter | rfl
      · refine ⟨?_, ?_⟩
        · rw [← Bool.not_eq_true]
          intro hdigit
          rw [not_isAlpha_of_isDigit hdigit] at hletter
          cases hletter
        · rintro rfl
          cases hletter
      · decide
  | parenthesised before after h _ =>
    apply exists_minus_of_first (.parenthesised before after h)
    rintro _ ⟨⟩
    decide
  | minus spaces h hfirst _ =>
    apply exists_minus_of_first (.minus spaces h hfirst)
    rintro _ ⟨⟩
    decide
  | plus spaces h _ =>
    apply exists_minus_of_first (.plus spaces h)
    rintro _ ⟨⟩
    decide
  | @binary op before after p q hadmits lead other l r a b hl hr ihl _ =>
    have hle : op.precedence ≤ p := by
      unfold BinaryOp.Admits at hadmits
      split at hadmits <;> omega
    obtain ⟨s, hs, hvalue⟩ := ihl (Nat.le_trans hlevel hle)
    refine ⟨.binary op s r, Infix.binary before after hadmits hs hr, fun fields v hv ↦ ?_⟩
    simp only [value?, Option.bind_eq_bind, Option.bind_eq_some_iff] at hv
    obtain ⟨x, hx, y, hy, hv⟩ := hv
    obtain ⟨n, hn, hsx⟩ := hvalue fields x hx
    simp only [value?, hsx, hy, Option.bind_eq_bind, Option.bind_some]
    cases op with
    | add => cases Nat.not_succ_le_self 1 hlevel
    | subtract => cases Nat.not_succ_le_self 1 hlevel
    | multiply =>
      obtain rfl := Option.some.inj hv
      exact ⟨n, hn, congrArg some (mul_assoc _ _ _)⟩
    | divide =>
      refine ⟨n, hn, ?_⟩
      rw [BinaryOp.result?] at hv ⊢
      split at hv
      · cases hv
      · next hzero =>
        obtain rfl := Option.some.inj hv
        rw [if_neg hzero, mul_div_assoc]
    | power =>
      -- The base binds as one, so the minus negates it and the exponent decides.
      have hbase : lead = none := hl.lead_eq_none hadmits.1
      subst hbase
      obtain rfl : n = 1 := hn
      rw [BinaryOp.result?] at hv ⊢
      split at hv
      · next hnat =>
        obtain rfl := Option.some.inj hv
        refine ⟨y.num.toNat, ?_, ?_⟩
        · rw [if_pos rfl, IsLeadExponent, hy, ← hnat]
        · rw [if_pos hnat, pow_one, mul_pow]
      · cases hv

end Infix

/-- Whether no larger limit reads a text otherwise. -/
def IsEnough (limit : Nat) (s : String) : Prop :=
  ∀ larger, limit ≤ larger → parseWithin larger s = parseWithin limit s

/-- A text in infix notation is read as its formula within every limit that is enough for it. -/
theorem IsEnough.parseWithin_eq {level limit : Nat} {lead : Option Formula} {t : Formula}
    {s : String} (h : IsEnough limit s) (hs : Infix level lead t s.toList) :
    parseWithin limit s = t := by
  rw [← h (max limit s.length) (Nat.le_max_left _ _)]
  exact parseWithin_infixText hs (Nat.le_max_right _ _)

/-- A limit as large as a text in infix notation is enough for it. -/
theorem isEnough_infixText {level limit : Nat} {lead : Option Formula} {t : Formula} {s : String}
    (h : Infix level lead t s.toList) (hlimit : s.length ≤ limit) : IsEnough limit s := by
  intro larger hlarger
  rw [parseWithin_infixText h hlimit, parseWithin_infixText h (Nat.le_trans hlimit hlarger)]

/-- So is it, with one more, where a minus stands before the text. -/
theorem isEnough_minus {level limit : Nat} {lead : Option Formula} {t : Formula} {s : String}
    (h : Infix level lead t s.toList) (hlevel : 2 ≤ level) (hlimit : s.length < limit) :
    IsEnough limit ("-" ++ s) := by
  obtain ⟨negated, hnegated, -⟩ := h.exists_minus hlevel
  have htext : ("-" ++ s).toList = '-' :: s.toList := by simp [String.toList_append]
  rw [← htext] at hnegated
  apply isEnough_infixText hnegated
  rw [← String.length_toList, htext, List.length_cons, String.length_toList]
  exact hlimit

/-- A minus before a term, a text in infix notation whose main operator is neither plus nor minus,
negates its value as often as the exponent of its first factor counts: once where that factor is no
power. -/
theorem parseWithin_minus_value {level limit : Nat} {lead : Option Formula} {t : Formula}
    {s : String} (h : Infix level lead t s.toList)
    (hmain : ∀ place, mainOperator? s.toList = some place → place.op.isSign = false)
    (hterm : IsEnough limit s) (hminus : IsEnough limit ("-" ++ s)) {fields : String → ℚ} {v : ℚ}
    (hv : (parseWithin limit s).value? fields = some v) :
    ∃ n, IsLeadExponent fields lead n ∧
      (parseWithin limit ("-" ++ s)).value? fields = some ((-1) ^ n * v) := by
  obtain ⟨negated, hnegated, hvalue⟩ := h.exists_minus (h.two_le_level hmain)
  have htext : ("-" ++ s).toList = '-' :: s.toList := by simp [String.toList_append]
  rw [← htext] at hnegated
  rw [hterm.parseWithin_eq h] at hv
  rw [hminus.parseWithin_eq hnegated]
  exact hvalue fields v hv

/-! ### A power in front -/

/-- A quotient of a product whose first factor is a power. -/
def cubic : Formula :=
  .binary .divide
    (.binary .multiply (.binary .power (.field "a") (.number (.finite false 3 0)))
      (.binary .subtract (.field "b") (.number (.finite true 1 1))))
    (.field "c")

/-- It is written with a sign inside, and with a minus before its first factor. -/
theorem infix_cubic :
    Infix 2 (some (.number (.finite false 3 0))) cubic "a ^ 3*(b - -2) / c".toList := by
  have ha : Infix 4 none (.field "a") ['a'] := .field (by decide)
  have hb : Infix 4 none (.field "b") ['b'] := .field (by decide)
  have hc : Infix 4 none (.field "c") ['c'] := .field (by decide)
  have hthree : Infix 4 none (.number (.finite false 3 0)) ['3'] :=
    @Infix.number ⟨none, ['3'], none, none⟩ ⟨.inl rfl, by decide, by decide, by simp, rfl⟩
  have hnegative : Infix 4 none (.number (.finite true 1 1)) ['-', '2'] :=
    @Infix.number ⟨some '-', ['2'], none, none⟩ ⟨.inr rfl, by decide, by decide, by simp, rfl⟩
  have hpower := @Infix.binary .power 1 1 4 4 (by decide) _ _ _ _ _ _ ha hthree
  have hdifference := @Infix.binary .subtract 1 1 4 4 (by decide) _ _ _ _ _ _ hb hnegative
  have hproduct := @Infix.binary .multiply 0 0 3 4 (by decide) _ _ _ _ _ _ hpower
    (.parenthesised 0 0 hdifference)
  exact @Infix.binary .divide 1 1 2 4 (by decide) _ _ _ _ _ _ hproduct hc

/-- The values of its fields. -/
def cubicFields (path : String) : ℚ := if path = "a" then 2 else if path = "b" then 1 else 4

/-- Its first factor has an odd exponent, so a minus in front negates it. -/
theorem parseWithin_minus_value_cubic :
    Infix 2 (some (.number (.finite false 3 0))) cubic "a ^ 3*(b - -2) / c".toList ∧
      (∀ place, mainOperator? "a ^ 3*(b - -2) / c".toList = some place →
        place.op.isSign = false) ∧
        IsEnough 19 "a ^ 3*(b - -2) / c" ∧ IsEnough 19 "-a ^ 3*(b - -2) / c" ∧
          (parseWithin 19 "a ^ 3*(b - -2) / c").value? cubicFields = some 6 ∧
            (parseWithin 19 "-a ^ 3*(b - -2) / c").value? cubicFields = some (-6) := by
  have hterm : IsEnough 19 "a ^ 3*(b - -2) / c" := isEnough_infixText infix_cubic (by decide)
  have hminus : IsEnough 19 ("-" ++ "a ^ 3*(b - -2) / c") :=
    isEnough_minus infix_cubic (by decide) (by decide)
  have hvalue : (parseWithin 19 "a ^ 3*(b - -2) / c").value? cubicFields = some 6 := by
    rw [hterm.parseWithin_eq infix_cubic]
    simp [cubic, value?, BinaryOp.result?, Double.toRat?, cubicFields]
    norm_num
  have hmain : ∀ place, mainOperator? "a ^ 3*(b - -2) / c".toList = some place →
      place.op.isSign = false := by decide
  obtain ⟨n, hn, hnegated⟩ := parseWithin_minus_value infix_cubic hmain hterm hminus hvalue
  have hthree : (3 : ℚ) = n := by
    have hexponent : (Formula.number (.finite false 3 0)).value? cubicFields = some 3 := by
      simp [value?, Double.toRat?]
    exact Option.some.inj (hexponent.symm.trans hn)
  obtain rfl : 3 = n := by exact_mod_cast hthree
  have hsix : (-1 : ℚ) ^ 3 * 6 = -6 := by norm_num
  rw [hsix] at hnegated
  exact ⟨infix_cubic, hmain, hterm, hminus, hvalue, hnegated⟩

/-- A square. -/
def square : Formula := .binary .power (.field "a") (.number (.finite false 1 1))

/-- A square in infix notation. -/
theorem infix_square : Infix 3 (some (.number (.finite false 1 1))) square "a^2".toList := by
  have ha : Infix 4 none (.field "a") ['a'] := .field (by decide)
  have htwo : Infix 4 none (.number (.finite false 1 1)) ['2'] :=
    @Infix.number ⟨none, ['2'], none, none⟩ ⟨.inl rfl, by decide, by decide, by simp, rfl⟩
  exact @Infix.binary .power 0 0 4 4 (by decide) _ _ _ _ _ _ ha htwo

/-- A minus in front does not negate a square: it is the base that is negated. -/
theorem parseWithin_minus_value_square :
    Infix 3 (some (.number (.finite false 1 1))) square "a^2".toList ∧
      (∀ place, mainOperator? "a^2".toList = some place → place.op.isSign = false) ∧
        IsEnough 10 "a^2" ∧ IsEnough 10 "-a^2" ∧
          (parseWithin 10 "a^2").value? (fun _ ↦ 3) = some 9 ∧
            (parseWithin 10 "-a^2").value? (fun _ ↦ 3) = some 9 ∧
              (parseWithin 10 "-a^2").value? (fun _ ↦ 3) ≠ some (-9) := by
  have hterm : parseWithin 10 "a^2" = square := by decide +kernel
  have hminus : parseWithin 10 "-a^2" =
      .binary .power (.negate (.field "a")) (.number (.finite false 1 1)) := by decide +kernel
  have hnine : (parseWithin 10 "-a^2").value? (fun _ ↦ 3) = some 9 := by
    rw [hminus]
    simp [value?, BinaryOp.result?, Double.toRat?]
    norm_num
  have henough : IsEnough 10 ("-" ++ "a^2") := isEnough_minus infix_square (by decide) (by decide)
  refine ⟨infix_square, by decide, isEnough_infixText infix_square (by decide), henough, ?_, hnine,
    ?_⟩
  · rw [hterm]
    simp [square, value?, BinaryOp.result?, Double.toRat?]
    norm_num
  · rw [hnine]
    norm_num

end Formula
end FilterPipeline
