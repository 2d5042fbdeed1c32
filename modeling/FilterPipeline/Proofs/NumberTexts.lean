import FilterPipeline.Proofs.CompactTexts
import FilterPipeline.Proofs.PlainNumerals

/-!
# Numbers in compact texts

An integer of 64 bits is read back from its text. A double is read back when the reader's steps lead
to it; what is written for it is in any case one number or word to the reader.
-/

namespace FilterPipeline

private theorem head?_toDigits {n : Nat} (h : 0 < n) :
    ∀ c ∈ (Nat.toDigits 10 n).head?, c ≠ '0' := by
  induction n using Nat.strong_induction_on with
  | _ n ih =>
    by_cases hn : n < 10
    · have hdigit : ∀ k < 10, 0 < k → Nat.digitChar k ≠ '0' := by decide
      rw [Nat.toDigits_of_lt_base hn]
      intro c hc
      cases hc
      exact hdigit n hn h
    · have hpos : 0 < n / 10 := Nat.div_pos (Nat.le_of_not_lt hn) (by decide)
      rw [Nat.toDigits_of_base_le (by decide) (Nat.le_of_not_lt hn),
        List.head?_append_of_ne_nil _ Nat.toDigits_ne_nil]
      exact ih _ (by omega) hpos

namespace Json

open Lexer (isScalarChar Spells)

private theorem isScalarChar_of_isDigit {c : Char} (h : c.isDigit = true) :
    isScalarChar c = true := by
  simp [isScalarChar, Char.isAlphanum, h]

/-! ## Integers -/

/-- The numeral of an integer. -/
def intNumeral (n : Int) : Numeral :=
  ⟨if n < 0 then some '-' else none, Nat.toDigits 10 n.natAbs, none, none⟩

private theorem isPlain_intNumeral (n : Int) : (intNumeral n).IsPlain where
  sign := by
    rw [intNumeral]
    split
    · exact Or.inr rfl
    · exact Or.inl rfl
  whole := Nat.toDigits_ne_nil
  wholeDigits := List.all_eq_true.mpr fun _ hd ↦
    Nat.isDigit_of_mem_toDigits (by decide) (by decide) hd
  fraction _ h := nomatch h
  exponent := rfl

private theorem toList_compact_int (n : Int) :
    (Json.int n).compact.toList = (intNumeral n).plainText := by
  have hcompact : (Json.int n).compact = n.repr := rfl
  rw [hcompact, Int.repr_eq_if, intNumeral, Numeral.plainText, Numeral.magnitudeText]
  dsimp only
  rw [List.append_nil]
  by_cases hn : n < 0
  · have habs : (-n).toNat = n.natAbs := by omega
    rw [if_neg (Int.not_le.mpr hn), if_pos hn, String.toList_append, Nat.toList_repr, habs]
    rfl
  · have habs : n.toNat = n.natAbs := by omega
    rw [if_pos (Int.not_lt.mp hn), if_neg hn, Nat.toList_repr, habs]
    rfl

private theorem admits_intNumeral (n : Int) : Literal.admits (intNumeral n) = true := by
  have hsign : ((intNumeral n).sign != some '+') = true := by
    rw [intNumeral]
    split <;> rfl
  have hfraction : ((intNumeral n).fraction != some []) = true := rfl
  rw [Literal.admits, hsign, hfraction, Bool.true_and, Bool.and_true]
  rcases Nat.eq_zero_or_pos n.natAbs with hzero | hpos
  · simp [intNumeral, hzero]
  · have hhead := head?_toDigits hpos
    have hne : Nat.toDigits 10 n.natAbs ≠ [] := Nat.toDigits_ne_nil
    simp only [intNumeral]
    generalize Nat.toDigits 10 n.natAbs = digits at hhead hne
    cases digits with
    | nil => exact absurd rfl hne
    | cons first rest => simp [hhead first rfl]

/-- Whether an integer fits into 64 bits, with or without sign. -/
def FitsInt64 (n : Int) : Prop := Double.minInt64 ≤ n ∧ n ≤ Literal.maxUInt64

private theorem read_intNumeral {n : Int} (h : FitsInt64 n) :
    Literal.read (intNumeral n) = .int n := by
  have hcoefficient : (intNumeral n).coefficient = n.natAbs := by
    rw [Numeral.coefficient, intNumeral, Option.getD_none, List.append_nil,
      Double.digitsValue_toDigits]
  have hnegative : (intNumeral n).isNegative = decide (n < 0) := by
    rw [Numeral.isNegative, intNumeral]
    by_cases hn : n < 0 <;> simp [hn]
  have hvalue : (if decide (n < 0) = true then -(n.natAbs : Int) else n.natAbs) = n := by
    simp only [decide_eq_true_eq]
    split <;> omega
  have hzero : (decide (n < 0) && (n.natAbs : Int) == 0) = false := by
    rw [Bool.and_eq_false_iff, decide_eq_false_iff_not, beq_eq_false_iff_ne]
    omega
  rw [Literal.read]
  simp only [hcoefficient, hnegative, hvalue, hzero, decide_eq_true h.1, decide_eq_true h.2]
  rfl

/-- A text that is a numeral is none of the three words. -/
theorem scalar?_of_read? {cs : List Char} {n : Numeral} (hread : Numeral.read? cs = some n)
    (hadmits : Literal.admits n = true) : scalar? cs = some (Literal.read n) := by
  have hword {word : String} (h : Numeral.read? word.toList = none) : String.ofList cs ≠ word := by
    rintro rfl
    rw [String.toList_ofList, hread] at h
    cases h
  unfold scalar?
  split
  · next heq => exact absurd heq (hword rfl)
  · next heq => exact absurd heq (hword rfl)
  · next heq => exact absurd heq (hword rfl)
  · rw [hread]
    exact if_pos hadmits

/-- What is written for an integer is a number to the reader. -/
theorem isScalarChar_compact_int (n : Int) :
    ∀ c ∈ (Json.int n).compact.toList, isScalarChar c = true := by
  rw [toList_compact_int]
  intro c hc
  rcases (isPlain_intNumeral n).isLiteral.of_mem_plainText hc with rfl | hc | rfl
  · rfl
  · exact isScalarChar_of_isDigit hc
  · rfl

private theorem spells_int {n : Int} (h : FitsInt64 n) :
    Spells (Json.int n).compact.toList [scalarToken (.int n)] := by
  refine Lexer.spells_scalar ?_ (isScalarChar_compact_int n)
  rw [toList_compact_int, scalar?_of_read? (isPlain_intNumeral n).read?_plainText
    (admits_intNumeral n), read_intNumeral h]
  rfl

/-! ## Doubles -/

private theorem isScalarChar_toDigits (n : Nat) : ∀ c ∈ Nat.toDigits 10 n, isScalarChar c = true :=
  fun _ hc ↦ isScalarChar_of_isDigit (Nat.isDigit_of_mem_toDigits (by decide) (by decide) hc)

private theorem isScalarChar_replicate (n : Nat) :
    ∀ c ∈ List.replicate n '0', isScalarChar c = true :=
  fun _ hc ↦ by rw [List.eq_of_mem_replicate hc]; rfl

private theorem isScalarChar_writePositional {digits : List Char}
    (h : ∀ c ∈ digits, isScalarChar c = true) (p : Int) :
    ∀ c ∈ (Double.writePositional .json digits p).toList, isScalarChar c = true := by
  rw [Double.writePositional]
  split
  · rw [String.toList_append, String.toList_ofList]
    exact List.forall_mem_append.mpr
      ⟨List.forall_mem_append.mpr ⟨h, isScalarChar_replicate _⟩, List.all_eq_true.mp (by decide)⟩
  · have hpadded := List.forall_mem_append.mpr
      ⟨isScalarChar_replicate ((-p).toNat + 1 - digits.length), h⟩
    simp only [String.toList_append, String.toList_ofList]
    exact List.forall_mem_append.mpr ⟨List.forall_mem_append.mpr
      ⟨fun c hc ↦ hpadded c (List.mem_of_mem_take hc), List.all_eq_true.mp (by decide)⟩,
      fun c hc ↦ hpadded c (List.mem_of_mem_drop hc)⟩

private theorem isScalarChar_writeScientific {digits : List Char}
    (h : ∀ c ∈ digits, isScalarChar c = true) (k : Int) :
    ∀ c ∈ (Double.writeScientific digits k).toList, isScalarChar c = true := by
  have hexponent : ∀ c ∈ (if 0 ≤ k then "e+" else "e-").toList, isScalarChar c = true := by
    split <;> exact List.all_eq_true.mp (by decide)
  have hpower : ∀ c ∈ (toString k.natAbs).toList, isScalarChar c = true := by
    have hdigits : (toString k.natAbs).toList = Nat.toDigits 10 k.natAbs := Nat.toList_repr
    rw [hdigits]
    exact isScalarChar_toDigits _
  unfold Double.writeScientific
  rw [String.toList_append, String.toList_append]
  refine List.forall_mem_append.mpr ⟨List.forall_mem_append.mpr ⟨?_, hexponent⟩, hpower⟩
  cases digits with
  | nil => exact List.forall_mem_nil _
  | cons first rest =>
    obtain ⟨hfirst, hrest⟩ := List.forall_mem_cons.mp h
    dsimp only
    split
    · rw [String.toList_ofList]
      exact List.forall_mem_singleton.mpr hfirst
    · rw [String.toList_ofList]
      exact List.forall_mem_cons.mpr ⟨hfirst, List.forall_mem_cons.mpr ⟨rfl, hrest⟩⟩

/-- What is written for a double is a number or a word to the reader. -/
theorem isScalarChar_write (x : Double) : ∀ c ∈ (x.write .json).toList, isScalarChar c = true := by
  cases x with
  | nan => exact List.all_eq_true.mp (by decide)
  | infinite negative => cases negative <;> exact List.all_eq_true.mp (by decide)
  | finite negative m q =>
    have hdigits (tie : Double.Tie) : ∀ c ∈ (Double.shortest tie m q).1, isScalarChar c = true := by
      rw [Double.shortest_eq]
      exact fun c hc ↦
        isScalarChar_of_isDigit (List.all_eq_true.mp (Double.dropZeros_spec _ _).1 c hc)
    rw [Double.write, String.toList_append]
    refine List.forall_mem_append.mpr ⟨?_, ?_⟩
    · cases negative <;> exact List.all_eq_true.mp (by decide)
    rw [Double.writeMagnitude]
    split
    · exact List.all_eq_true.mp (by decide)
    · replace hdigits := hdigits Double.Format.json.tie
      generalize Double.shortest Double.Format.json.tie m q = found at hdigits
      obtain ⟨digits, p⟩ := found
      dsimp only at hdigits ⊢
      split_ifs
      · exact isScalarChar_writePositional hdigits _
      · exact isScalarChar_writeScientific hdigits _

private theorem exists_scalar?_of_ofText? {text : String} {v : Json}
    (hchars : ∀ c ∈ text.toList, isScalarChar c = true) (h : ofText? text = some v) :
    ∃ s, scalar? text.toList = some s ∧ s.toJson? = some v := by
  have htokens : tokens? text = Lexer.tokensFrom? ⟨[], .between⟩ text.toList := rfl
  rw [ofText?, readSource?, htokens] at h
  generalize text.toList = cs at hchars h ⊢
  cases cs with
  | nil => cases h
  | cons c cs =>
    obtain ⟨hc, hcs⟩ := List.forall_mem_cons.mp hchars
    have hstep : Lexer.step ⟨[], .between⟩ c = some ⟨[], .scalar [c]⟩ :=
      Lexer.stepBetween_of_isScalarChar hc
    have hgather : Lexer.tokensFrom? ⟨[], .scalar [c]⟩ (cs ++ []) =
        Lexer.tokensFrom? ⟨[], .scalar (cs.reverse ++ [c])⟩ [] := Lexer.tokensFrom?_gather hcs
    rw [List.append_nil] at hgather
    rw [Lexer.tokensFrom?_cons, hstep, Option.bind_some, hgather] at h
    have hreverse : (cs.reverse ++ [c]).reverse = c :: cs := by simp
    cases hs : scalar? (c :: cs) with
    | none => simp [Lexer.tokensFrom?, Lexer.finish?, hreverse, hs] at h
    | some s =>
      refine ⟨s, rfl, ?_⟩
      simpa [Lexer.tokensFrom?, Lexer.finish?, hreverse, hs, Builder.step, Builder.start,
        Builder.put] using h

/-- A numeral with a point or an exponent is read as the double that the reader's steps lead to. -/
theorem scalar?_of_toDouble? {cs : List Char} {n : Numeral} {x : Double}
    (hread : Numeral.read? cs = some n) (hadmits : Literal.admits n = true)
    (hform : (n.fraction.isNone && n.exponent.isNone) = false)
    (hx : Literal.toDouble? n = some x) : scalar? cs = some (.double x) := by
  have hdouble : Literal.read n = .double x := by
    simp [Literal.read, hform, hx]
  rw [scalar?_of_read? hread hadmits, hdouble]

private theorem spells_double {x : Double}
    (h : ofText? (Json.double x).compact = some (.double x)) :
    Spells (Json.double x).compact.toList [scalarToken (.double x)] := by
  have hchars : ∀ c ∈ (Json.double x).compact.toList, isScalarChar c = true :=
    isScalarChar_write x
  obtain ⟨s, hs, hjson⟩ := exists_scalar?_of_ofText? hchars h
  have hsource : s = .double x := by
    cases s with
    | double y =>
      cases hjson
      rfl
    | arr items =>
      obtain ⟨_, -, heq⟩ := Option.map_eq_some_iff.mp hjson
      cases heq
    | obj members =>
      obtain ⟨_, -, heq⟩ := Option.map_eq_some_iff.mp hjson
      cases heq
    | _ => cases hjson
  exact Lexer.spells_scalar (hs.trans (congrArg some hsource)) hchars

/-- The compact form of a value is read as the value if it is not nested too deeply, its integers
fit into 64 bits and each of its doubles is read back from its own text. -/
theorem ofText?_compact_of_doubles {v : Json} (hnesting : v.nesting ≤ maxNesting)
    (hints : ∀ n, .int n ∈ v.scalars → FitsInt64 n)
    (hdoubles : ∀ x, .double x ∈ v.scalars →
      ofText? (Json.double x).compact = some (.double x)) :
    ofText? v.compact = some v := by
  have hflat : ∀ s : Json, s.isNumber = true → (id s).isFlat = true := by
    intro s hs
    cases s <;> first | rfl | cases hs
  refine (ofText?_compact hnesting hflat fun s hs hnumber ↦ ?_).trans
    (congrArg some v.mapNumbers_id)
  cases s with
  | int n => exact spells_int (hints n hs)
  | double x => exact spells_double (hdoubles x hs)
  | _ => cases hnumber

end Json
end FilterPipeline
