import FilterPipeline.Proofs.MainOperator
import Mathlib.Data.String.Basic

/-!
# The position of the main operator

Where a text is taken apart is told by a byte of the text: the one that holds the operator. Here the
bytes that come into question are described by the text alone, and so is the one that is chosen.
Main statement: there is a main operator exactly when there is a candidate, and it is the candidate
that binds least tightly, of several of them the last one, save that powers are taken apart at the
first one.
-/

namespace FilterPipeline.Formula

open Text

/-! ### The bytes of a text -/

section Bytes

variable {c d : Char}

private theorem le_of_mem_utf8EncodeChar (hc : 128 ≤ c.toNat) {b : UInt8}
    (hb : b ∈ String.utf8EncodeChar c) : 128 ≤ b.toNat := by
  have hwide : ¬ c.val.toNat ≤ 127 := by
    rw [Nat.not_le]
    exact hc
  simp only [String.utf8EncodeChar, if_neg hwide] at hb
  -- Two, three or four bytes, the first of them marked by 192, 224 or 240 and the others by 128.
  split at hb
  · simp only [List.mem_cons, List.not_mem_nil, or_false] at hb
    rcases hb with rfl | rfl <;> rw [UInt8.toNat_ofNat'] <;> omega
  · split at hb
    · simp only [List.mem_cons, List.not_mem_nil, or_false] at hb
      rcases hb with rfl | rfl | rfl <;> rw [UInt8.toNat_ofNat'] <;> omega
    · simp only [List.mem_cons, List.not_mem_nil, or_false] at hb
      rcases hb with rfl | rfl | rfl | rfl <;> rw [UInt8.toNat_ofNat'] <;> omega

/-- An ASCII character is one byte. -/
theorem utf8EncodeChar_of_lt (hc : c.toNat < 128) : String.utf8EncodeChar c = [c.toUInt8] := by
  have hle : c.val.toNat ≤ 127 := Nat.le_of_lt_succ hc
  simp only [String.utf8EncodeChar, if_pos hle]
  rfl

/-- The byte of an ASCII character is in no other character. -/
theorem toUInt8_mem_utf8EncodeChar_iff (hc : c.toNat < 128) :
    c.toUInt8 ∈ String.utf8EncodeChar d ↔ d = c := by
  have hbyte : ∀ e : Char, e.toUInt8.toNat = e.toNat % 256 := fun _ ↦ rfl
  by_cases hd : d.toNat < 128
  · rw [utf8EncodeChar_of_lt hd, List.mem_singleton]
    constructor
    · intro h
      have hnat := congrArg UInt8.toNat h
      rw [hbyte, hbyte] at hnat
      exact Char.toNat_inj.mp (by omega)
    · rintro rfl
      rfl
  · constructor
    · intro h
      have hle := le_of_mem_utf8EncodeChar (Nat.le_of_not_lt hd) h
      rw [hbyte] at hle
      omega
    · rintro rfl
      exact absurd hc hd

private theorem getElem?_flatMap_utf8EncodeChar (hc : c.toNat < 128) (cs : List Char) (i : Nat) :
    (cs.flatMap String.utf8EncodeChar)[i]? = some c.toUInt8 ↔
      ∃ before after, cs = before ++ c :: after ∧ String.utf8Len before = i := by
  induction cs generalizing i with
  | nil => simp
  | cons d cs ih =>
    rw [List.flatMap_cons]
    by_cases hi : i < (String.utf8EncodeChar d).length
    · rw [List.getElem?_append_left hi]
      constructor
      · intro h
        obtain rfl := (toUInt8_mem_utf8EncodeChar_iff hc).mp (List.mem_of_getElem? h)
        refine ⟨[], cs, rfl, ?_⟩
        rw [utf8EncodeChar_of_lt hc, List.length_singleton] at hi
        rw [String.utf8Len_nil]
        omega
      · rintro ⟨before, after, hcs, rfl⟩
        cases before with
        | nil =>
          rw [List.nil_append, List.cons.injEq] at hcs
          rw [hcs.1, utf8EncodeChar_of_lt hc]
          rfl
        | cons e before =>
          rw [List.cons_append, List.cons.injEq] at hcs
          rw [String.length_utf8EncodeChar, String.utf8Len_cons, hcs.1] at hi
          omega
    · rw [List.getElem?_append_right (Nat.le_of_not_lt hi), ih]
      rw [String.length_utf8EncodeChar] at hi ⊢
      constructor
      · rintro ⟨before, after, rfl, hlen⟩
        refine ⟨d :: before, after, rfl, ?_⟩
        rw [String.utf8Len_cons]
        omega
      · rintro ⟨before, after, hcs, rfl⟩
        cases before with
        | nil =>
          rw [String.utf8Len_nil] at hi
          exact absurd (Char.utf8Size_pos d) hi
        | cons e before =>
          rw [List.cons_append, List.cons.injEq] at hcs
          refine ⟨before, after, hcs.2, ?_⟩
          rw [String.utf8Len_cons, hcs.1, Nat.add_sub_cancel]

private theorem getElem?_toUTF8 (text : String) (i : Nat) :
    text.toUTF8[i]? = (text.toList.flatMap String.utf8EncodeChar)[i]? := by
  have hbytes : text.toUTF8 = (text.toList.flatMap String.utf8EncodeChar).toByteArray :=
    String.utf8Encode_toList.symm
  rw [hbytes, getElem?_def, getElem?_def]
  simp only [List.size_toByteArray, List.getElem_toByteArray]

end Bytes

/-- The characters of a text before one of its bytes. -/
def textBefore (text : String) (i : Nat) : List Char := (String.Pos.Raw.extract text 0 ⟨i⟩).toList

/-- The characters of a text behind one of its bytes. -/
def textBehind (text : String) (i : Nat) : List Char :=
  (String.Pos.Raw.extract text ⟨i + 1⟩ text.rawEndPos).toList

section Parts

variable {text : String} {before : List Char}

private theorem textBefore_utf8Len {rest : List Char} (h : text.toList = before ++ rest) :
    textBefore text (String.utf8Len before) = before := by
  have hextract := String.extract_of_valid [] before rest
  rw [List.nil_append, ← h, String.ofList_toList, String.utf8Len_nil, Nat.zero_add] at hextract
  rw [textBefore]
  exact (congrArg String.toList hextract).trans String.toList_ofList

private theorem textBehind_utf8Len {after : List Char} {c : Char} (hc : c.toNat < 128)
    (h : text.toList = before ++ c :: after) :
    textBehind text (String.utf8Len before) = after := by
  have hsize : c.utf8Size = 1 := by
    rw [← String.length_utf8EncodeChar, utf8EncodeChar_of_lt hc, List.length_singleton]
  have hlen : String.utf8Len (before ++ [c]) = String.utf8Len before + 1 := by
    rw [String.utf8Len_append, String.utf8Len_cons, String.utf8Len_nil, hsize]
  have htext : before ++ [c] ++ after ++ [] = text.toList := by
    rw [h, List.append_nil, List.append_assoc, List.singleton_append]
  have hend : text.rawEndPos = ⟨String.utf8Len before + 1 + String.utf8Len after⟩ := by
    rw [← hlen, ← String.utf8Len_append, ← String.rawEndPos_ofList, ← List.append_nil (_ ++ after),
      htext, String.ofList_toList]
  have hextract := String.extract_of_valid (before ++ [c]) after []
  rw [htext, String.ofList_toList, hlen] at hextract
  rw [textBehind, hend, hextract, String.toList_ofList]

end Parts

/-! ### Candidates -/

/-- A byte of a text at which it may be taken apart, and the operator that it holds: as many
parentheses are closed as opened behind it, the text on neither side is blank, and it is no sign. -/
structure IsCandidate (text : String) (i : Nat) (op : BinaryOp) : Prop where
  symbol : text.toUTF8[i]? = some op.symbol.toUInt8
  level : (textBehind text i).count ')' = (textBehind text i).count '('
  before : allBlank (textBefore text i) = false
  behind : allBlank (textBehind text i) = false
  binary : op = .add ∨ op = .subtract → isSignAfter (textBefore text i).reverse = false

/-- The candidate that a text is taken apart at: none binds less tightly, and of those that bind
alike it is the last one, or the first one where they are powers. -/
structure IsMainAt (text : String) (i : Nat) (op : BinaryOp) : Prop extends
    IsCandidate text i op where
  lowest : ∀ j other, IsCandidate text j other → op.precedence ≤ other.precedence
  chosen : ∀ j other, IsCandidate text j other → other.precedence = op.precedence →
    if op.precedence = BinaryOp.power.precedence then i ≤ j else j ≤ i

private theorem toNat_symbol_lt (op : BinaryOp) : op.symbol.toNat < 128 := by cases op <;> decide

/-- Only a plus or a minus can be a sign. -/
theorem isSign_and_eq_false_iff {op : BinaryOp} {b : Bool} :
    (op.isSign && b) = false ↔ (op = .add ∨ op = .subtract → b = false) := by
  cases op <;> simp [BinaryOp.isSign]

/-- The candidates of a text are the bytes of the places where it may be taken apart. -/
theorem isCandidate_iff {text : String} {i : Nat} {op : BinaryOp} :
    IsCandidate text i op ↔
      ∃ s, IsPlace text.toList s ∧ String.utf8Len s.left = i ∧ s.op = op := by
  constructor
  · rintro ⟨hsymbol, hlevel, hbefore, hbehind, hbinary⟩
    have hascii := toNat_symbol_lt op
    rw [getElem?_toUTF8, getElem?_flatMap_utf8EncodeChar hascii] at hsymbol
    obtain ⟨before, after, htext, rfl⟩ := hsymbol
    rw [textBefore_utf8Len htext] at hbefore hbinary
    rw [textBehind_utf8Len hascii htext] at hlevel hbehind
    exact ⟨⟨before, op, after⟩, ⟨⟨htext.symm, hlevel.symm, isSign_and_eq_false_iff.mpr hbinary⟩,
      hbefore, hbehind⟩, rfl, rfl⟩
  · rintro ⟨⟨before, op, after⟩, hplace, rfl, rfl⟩
    have hascii := toNat_symbol_lt op
    have htext : text.toList = before ++ op.symbol :: after := hplace.text.symm
    constructor
    · rw [getElem?_toUTF8, getElem?_flatMap_utf8EncodeChar hascii]
      exact ⟨before, after, htext, rfl⟩
    all_goals simp only [textBefore_utf8Len htext, textBehind_utf8Len hascii htext]
    · exact hplace.level.symm
    · exact hplace.left
    · exact hplace.right
    · exact isSign_and_eq_false_iff.mp hplace.binary

/-! ### The order of candidates -/

section Order

variable {cs : List Char} {s t : Split}

private theorem IsPlace.utf8Len_lt (hs : IsPlace cs s) (ht : IsPlace cs t)
    (h : s.left.length < t.left.length) : String.utf8Len s.left < String.utf8Len t.left := by
  have hstart : s.left <+: t.left :=
    List.prefix_of_prefix_length_le ⟨_, hs.text⟩ ⟨_, ht.text⟩ (Nat.le_of_lt h)
  obtain ⟨rest, hrest⟩ := hstart
  have hne : rest ≠ [] := by
    rintro rfl
    rw [List.append_nil] at hrest
    rw [hrest] at h
    exact Nat.lt_irrefl _ h
  rw [← hrest, String.utf8Len_append]
  exact Nat.lt_add_of_pos_right (Nat.pos_of_ne_zero (mt String.utf8Len_eq_zero.mp hne))

/-- The places of a text are in the order of their bytes. -/
theorem IsPlace.utf8Len_lt_iff (hs : IsPlace cs s) (ht : IsPlace cs t) :
    String.utf8Len s.left < String.utf8Len t.left ↔ s.left.length < t.left.length := by
  refine ⟨fun h ↦ ?_, hs.utf8Len_lt ht⟩
  rcases Nat.lt_trichotomy s.left.length t.left.length with hlt | heq | hgt
  · exact hlt
  · rw [hs.eq_of_length_eq ht heq] at h
    exact absurd h (Nat.lt_irrefl _)
  · exact absurd h (Nat.lt_asymm (ht.utf8Len_lt hs hgt))

/-- A place that no other is better than, told by precedences and bytes. -/
theorem IsPlace.eq_or_beats_iff (hs : IsPlace cs s) (ht : IsPlace cs t) :
    s = t ∨ s.Beats t ↔ s.op.precedence ≤ t.op.precedence ∧
      (t.op.precedence = s.op.precedence →
        if s.op.precedence = BinaryOp.power.precedence
        then String.utf8Len s.left ≤ String.utf8Len t.left
        else String.utf8Len t.left ≤ String.utf8Len s.left) := by
  have hpower : BinaryOp.power.precedence = 3 := rfl
  have hlt := hs.utf8Len_lt_iff ht
  have hgt := ht.utf8Len_lt_iff hs
  simp only [Split.Beats, Split.isRightAssociative_iff, hpower]
  constructor
  · rintro (rfl | h)
    · exact ⟨Nat.le_refl _, fun _ ↦ by split <;> exact Nat.le_refl _⟩
    · split at h <;> split <;> omega
  · rintro ⟨hle, hchosen⟩
    by_cases hsame : s.left.length = t.left.length
    · exact .inl (hs.eq_of_length_eq ht hsame)
    · right
      split at hchosen <;> split <;> omega

end Order

/-- The best place of a text is its main candidate. -/
theorem IsPlace.isMainAt_iff {text : String} {s : Split} (hs : IsPlace text.toList s) :
    IsMainAt text (String.utf8Len s.left) s.op ↔
      ∀ t, IsPlace text.toList t → s = t ∨ s.Beats t := by
  constructor
  · intro h t ht
    have hcandidate : IsCandidate text (String.utf8Len t.left) t.op :=
      isCandidate_iff.mpr ⟨t, ht, rfl, rfl⟩
    exact (hs.eq_or_beats_iff ht).mpr ⟨h.lowest _ _ hcandidate, h.chosen _ _ hcandidate⟩
  · intro h
    refine ⟨isCandidate_iff.mpr ⟨s, hs, rfl, rfl⟩, ?_, ?_⟩
    · intro j other hcandidate
      obtain ⟨t, ht, rfl, rfl⟩ := isCandidate_iff.mp hcandidate
      exact ((hs.eq_or_beats_iff ht).mp (h t ht)).1
    · intro j other hcandidate
      obtain ⟨t, ht, rfl, rfl⟩ := isCandidate_iff.mp hcandidate
      exact ((hs.eq_or_beats_iff ht).mp (h t ht)).2

/-! ### The main operator -/

/-- A text has no main operator exactly when it has no candidate. -/
theorem mainPosition?_eq_none_iff {text : String} :
    mainPosition? text = none ↔ ∀ i op, ¬ IsCandidate text i op := by
  rw [mainPosition?, Option.map_eq_none_iff, mainOperator?_eq_none_iff]
  constructor
  · intro h i op hcandidate
    obtain ⟨s, hs, -⟩ := isCandidate_iff.mp hcandidate
    exact h s hs
  · intro h s hs
    exact h _ _ (isCandidate_iff.mpr ⟨s, hs, rfl, rfl⟩)

/-- The main operator of a text is at its main candidate. -/
theorem mainPosition?_eq_some_iff {text : String} {i : Nat} {op : BinaryOp} :
    mainPosition? text = some (i, op) ↔ IsMainAt text i op := by
  simp only [mainPosition?, Option.map_eq_some_iff, mainOperator?_eq_some_iff, Prod.mk.injEq,
    String.utf8ByteSize_ofList]
  constructor
  · rintro ⟨s, ⟨hs, hbest⟩, rfl, rfl⟩
    exact hs.isMainAt_iff.mpr hbest
  · intro h
    obtain ⟨s, hs, rfl, rfl⟩ := isCandidate_iff.mp h.toIsCandidate
    exact ⟨s, ⟨hs, hs.isMainAt_iff.mp h⟩, rfl, rfl⟩

/-- No main operator is found exactly when there is no candidate, and one is found exactly where it
binds least tightly of all candidates and is the last such one, or the first such one of powers. -/
theorem mainPosition?_finds_main (text : String) :
    (mainPosition? text = none ↔ ∀ i op, ¬ IsCandidate text i op) ∧
      ∀ i op, mainPosition? text = some (i, op) ↔ IsMainAt text i op :=
  ⟨mainPosition?_eq_none_iff, fun _ _ ↦ mainPosition?_eq_some_iff⟩

-- A letter of two bytes, a sign behind an operator, and powers grouped from the right.
example : mainPosition? "α*-b/c" = some (5, .divide) := by decide

example : mainPosition? "α^b^c" = some (2, .power) := by decide

end FilterPipeline.Formula
