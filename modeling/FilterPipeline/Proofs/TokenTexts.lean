import FilterPipeline.Json.Token
import FilterPipeline.Json.Writer
import Mathlib.Data.List.Forall2

/-!
# The tokens of written strings, numbers and words

A number or a word has no end of its own: it ends where a character follows that cannot belong to
it. What characters spell is therefore said of characters with something behind them.
-/

namespace FilterPipeline.Json

namespace Lexer

/-- The tokens of a text that goes on from a state. -/
def tokensFrom? (s : Lexer) (cs : List Char) : Option (List Token) := do
  (← cs.foldlM step s).finish?

variable {s : Lexer} {c : Char} {cs cs' rest : List Char} {before ts ts' : List Token}

/-- A text is read from its first character on. -/
theorem tokensFrom?_cons : s.tokensFrom? (c :: cs) = (s.step c).bind (tokensFrom? · cs) := by
  rw [tokensFrom?, List.foldlM_cons]
  cases s.step c <;> rfl

/-- Whether what follows ends a number or a word. -/
def EndsScalar (rest : List Char) : Prop := ∀ c ∈ rest.head?, isScalarChar c = false

/-- Characters that are read as some tokens wherever a token may begin. -/
def Spells (cs : List Char) (ts : List Token) : Prop :=
  ∀ before rest, EndsScalar rest →
    tokensFrom? ⟨before, .between⟩ (cs ++ rest) = tokensFrom? ⟨ts.reverse ++ before, .between⟩ rest

/-- The empty text spells no tokens. -/
theorem spells_nil : Spells [] [] := fun _ _ _ ↦ rfl

/-- A text is read as what it spells. -/
theorem Spells.tokens?_eq {text : String} (h : Spells text.toList ts) : tokens? text = some ts := by
  have hread := h [] [] (fun _ hc ↦ nomatch hc)
  rw [List.append_nil, List.append_nil] at hread
  refine hread.trans (congrArg some ?_)
  rw [List.reverse_reverse]

/-- A character that is a token by itself. -/
def IsPunctuation (c : Char) (t : Token) : Prop :=
  isScalarChar c = false ∧ ∀ before, stepBetween before c = some ⟨t :: before, .between⟩

/-- A punctuation mark between two pieces of text. -/
theorem Spells.punctuated {t : Token} (hc : IsPunctuation c t) (h : Spells cs ts)
    (h' : Spells cs' ts') : Spells (cs ++ c :: cs') (ts ++ t :: ts') := by
  intro before rest hrest
  have hends : EndsScalar (c :: (cs' ++ rest)) := fun d hd ↦ by
    cases hd
    exact hc.1
  have hstep : step ⟨ts.reverse ++ before, .between⟩ c =
      some ⟨t :: (ts.reverse ++ before), .between⟩ := hc.2 _
  rw [List.append_assoc, List.cons_append, h _ _ hends, tokensFrom?_cons, hstep, Option.bind_some,
    h' _ _ hrest, List.reverse_append, List.reverse_cons, List.append_assoc, List.append_assoc,
    List.singleton_append]

/-! ## Numbers and words -/

/-- The first character of a number or a word. -/
theorem stepBetween_of_isScalarChar (h : isScalarChar c = true) :
    stepBetween before c = some ⟨before, .scalar [c]⟩ := by
  have hne (d : Char) (hd : isScalarChar d = false) : (c == d) = false := by
    refine beq_eq_false_iff_ne.mpr fun heq ↦ ?_
    rw [heq, hd] at h
    cases h
  rw [stepBetween, hne ' ' rfl, hne '\n' rfl, hne '\t' rfl, hne '\r' rfl, hne '[' rfl, hne ']' rfl,
    hne '\x7b' rfl, hne '\x7d' rfl, hne ',' rfl, hne ':' rfl, hne '"' rfl, h]
  rfl

/-- The characters of a number or a word are gathered. -/
theorem tokensFrom?_gather {gathered : List Char} (h : ∀ c ∈ cs, isScalarChar c = true) :
    tokensFrom? ⟨before, .scalar gathered⟩ (cs ++ rest) =
      tokensFrom? ⟨before, .scalar (cs.reverse ++ gathered)⟩ rest := by
  induction cs generalizing gathered with
  | nil => rfl
  | cons c cs ih =>
    obtain ⟨hc, hcs⟩ := List.forall_mem_cons.mp h
    have hstep : step ⟨before, .scalar gathered⟩ c = some ⟨before, .scalar (c :: gathered)⟩ :=
      if_pos hc
    rw [List.cons_append, tokensFrom?_cons, hstep, Option.bind_some, ih hcs, List.reverse_cons,
      List.append_assoc, List.singleton_append]

private theorem tokensFrom?_endScalar {gathered : List Char} {v : Source}
    (hv : scalar? gathered.reverse = some v) (hrest : EndsScalar rest) :
    tokensFrom? ⟨before, .scalar gathered⟩ rest =
      tokensFrom? ⟨.scalar v :: before, .between⟩ rest := by
  cases rest with
  | nil => simp [tokensFrom?, finish?, hv]
  | cons c rest =>
    have hc : isScalarChar c = false := hrest c rfl
    have hstep : step ⟨before, .scalar gathered⟩ c = step ⟨.scalar v :: before, .between⟩ c := by
      simp [step, hc, hv]
    rw [tokensFrom?_cons, tokensFrom?_cons, hstep]

/-- Characters that are judged to be a number or a word. -/
theorem spells_scalar {v : Source} (hv : scalar? cs = some v)
    (h : ∀ c ∈ cs, isScalarChar c = true) : Spells cs [.scalar v] := by
  intro before rest hrest
  cases cs with
  | nil => cases hv
  | cons c cs =>
    obtain ⟨hc, hcs⟩ := List.forall_mem_cons.mp h
    have hstep : step ⟨before, .between⟩ c = some ⟨before, .scalar [c]⟩ :=
      stepBetween_of_isScalarChar hc
    rw [List.cons_append, tokensFrom?_cons, hstep, Option.bind_some, tokensFrom?_gather hcs,
      tokensFrom?_endScalar (v := v) (by simpa using hv) hrest]
    rfl

end Lexer

/-! ## Strings -/

namespace Piece

/-- A piece that makes a character: the character itself, or the unit of a control character. -/
def Makes (p : Piece) (c : Char) : Prop := p = .char c ∨ p = .unit c.toNat ∧ c.toNat < 0x20

private theorem assemble_of_makes {ps : List Piece} {cs : List Char}
    (h : List.Forall₂ Makes ps cs) :
    assemble ps = some cs := by
  induction h with
  | nil => rfl
  | @cons p c ps cs hp _ ih =>
    rcases hp with rfl | ⟨rfl, hc⟩
    · rw [assemble, ih]
      rfl
    · have hhigh : isHigh c.toNat = false := by simp [isHigh]; omega
      have hlow : isLow c.toNat = false := by simp [isLow]; omega
      rw [assemble.eq_def]
      simp [hhigh, hlow, ih]

end Piece

private theorem hexDigit?_hexDigit {n : Nat} (h : n < 16) : hexDigit? (hexDigit n) = some n := by
  revert n
  decide

private theorem escapedChar_cases (c : Char) :
    ((escapedChar c).toList = [c] ∧ c ≠ '"' ∧ c ≠ '\\' ∧ ¬ c.val < 0x20) ∨
      (∃ e, (escapedChar c).toList = ['\\', e] ∧ escaped? e = some c ∧ e ≠ 'u') ∨
      ((escapedChar c).toList =
          ['\\', 'u', '0', '0', hexDigit (c.toNat / 16), hexDigit (c.toNat % 16)] ∧
        c.val < 0x20) := by
  unfold escapedChar
  split
  · exact Or.inr (Or.inl ⟨'"', rfl, rfl, by decide⟩)
  · exact Or.inr (Or.inl ⟨'\\', rfl, rfl, by decide⟩)
  · exact Or.inr (Or.inl ⟨'b', rfl, rfl, by decide⟩)
  · exact Or.inr (Or.inl ⟨'f', rfl, rfl, by decide⟩)
  · exact Or.inr (Or.inl ⟨'n', rfl, rfl, by decide⟩)
  · exact Or.inr (Or.inl ⟨'r', rfl, rfl, by decide⟩)
  · exact Or.inr (Or.inl ⟨'t', rfl, rfl, by decide⟩)
  · next hquote hbackslash _ _ _ _ _ =>
    split
    · next hcontrol =>
      exact Or.inr (Or.inr ⟨by simp, hcontrol⟩)
    · next hcontrol =>
      exact Or.inl ⟨String.toList_singleton c, hquote, hbackslash, hcontrol⟩

namespace Lexer

variable {before : List Token} {gathered : List Piece} {c e : Char} {cs rest : List Char}

private theorem step_text (hquote : c ≠ '"') (hbackslash : c ≠ '\\') (hc : ¬ c.val < 0x20) :
    step ⟨before, .text gathered⟩ c = some ⟨before, .text (.char c :: gathered)⟩ := by
  simp [step, hquote, hbackslash, hc]

private theorem step_escape (hu : e ≠ 'u') (he : escaped? e = some c) :
    step ⟨before, .escape gathered⟩ e = some ⟨before, .text (.char c :: gathered)⟩ := by
  simp [step, hu, he]

private theorem step_unit {missing value d : Nat} (hc : hexDigit? c = some d) :
    step ⟨before, .unit gathered missing value⟩ c =
      some ⟨before, if missing == 1 then .text (.unit (16 * value + d) :: gathered)
        else .unit gathered (missing - 1) (16 * value + d)⟩ := by
  simp only [step, hc, Option.bind_eq_bind, Option.bind_some]
  split <;> rfl

private theorem tokensFrom?_unit (hc : c.toNat < 0x20) :
    tokensFrom? ⟨before, .unit gathered 4 0⟩
      ('0' :: '0' :: hexDigit (c.toNat / 16) :: hexDigit (c.toNat % 16) :: rest) =
        tokensFrom? ⟨before, .text (.unit c.toNat :: gathered)⟩ rest := by
  have hzero : hexDigit? '0' = some 0 := rfl
  have hhigh := hexDigit?_hexDigit (n := c.toNat / 16) (by omega)
  have hlow := hexDigit?_hexDigit (n := c.toNat % 16) (by omega)
  have hvalue : 16 * (c.toNat / 16) + c.toNat % 16 = c.toNat := Nat.div_add_mod _ _
  simp [tokensFrom?_cons, step_unit hzero, step_unit hhigh, step_unit hlow, hvalue]

private theorem exists_piece (before : List Token) (gathered : List Piece) (c : Char)
    (rest : List Char) :
    ∃ p : Piece, p.Makes c ∧
      tokensFrom? ⟨before, .text gathered⟩ ((escapedChar c).toList ++ rest) =
        tokensFrom? ⟨before, .text (p :: gathered)⟩ rest := by
  have hbackslash : step ⟨before, .text gathered⟩ '\\' = some ⟨before, .escape gathered⟩ := rfl
  rcases escapedChar_cases c with ⟨heq, hquote, hne, hc⟩ | ⟨e, heq, he, hu⟩ | ⟨heq, hc⟩
  · refine ⟨.char c, Or.inl rfl, ?_⟩
    rw [heq, List.singleton_append, tokensFrom?_cons, step_text hquote hne hc, Option.bind_some]
  · refine ⟨.char c, Or.inl rfl, ?_⟩
    rw [heq, List.cons_append, List.singleton_append, tokensFrom?_cons, hbackslash,
      Option.bind_some, tokensFrom?_cons, step_escape hu he, Option.bind_some]
  · refine ⟨.unit c.toNat, Or.inr ⟨rfl, hc⟩, ?_⟩
    have hu : step ⟨before, .escape gathered⟩ 'u' = some ⟨before, .unit gathered 4 0⟩ := rfl
    rw [heq, List.cons_append, List.cons_append, tokensFrom?_cons, hbackslash, Option.bind_some,
      tokensFrom?_cons, hu, Option.bind_some]
    exact tokensFrom?_unit hc

private theorem exists_pieces (before : List Token) (gathered : List Piece) (cs rest : List Char) :
    ∃ ps : List Piece, List.Forall₂ Piece.Makes ps cs ∧
      tokensFrom? ⟨before, .text gathered⟩ (cs.flatMap (escapedChar · |>.toList) ++ rest) =
        tokensFrom? ⟨before, .text (ps.reverse ++ gathered)⟩ rest := by
  induction cs generalizing gathered with
  | nil => exact ⟨[], List.Forall₂.nil, rfl⟩
  | cons c cs ih =>
    obtain ⟨p, hp, hfirst⟩ := exists_piece before gathered c
      (cs.flatMap (escapedChar · |>.toList) ++ rest)
    obtain ⟨ps, hps, hrest⟩ := ih (p :: gathered)
    refine ⟨p :: ps, List.Forall₂.cons hp hps, ?_⟩
    rw [List.flatMap_cons, List.append_assoc, hfirst, hrest, List.reverse_cons, List.append_assoc,
      List.singleton_append]

end Lexer

private theorem toList_writeString (s : String) :
    (writeString s).toList = '"' :: s.toList.flatMap (escapedChar · |>.toList) ++ ['"'] := by
  have hfold (cs : List Char) (out : String) :
      (cs.foldl (fun out c ↦ out ++ escapedChar c) out).toList =
        out.toList ++ cs.flatMap (escapedChar · |>.toList) := by
    induction cs generalizing out with
    | nil => exact (List.append_nil _).symm
    | cons c cs ih =>
      rw [List.foldl_cons, ih, String.toList_append, List.append_assoc, List.flatMap_cons]
  rw [writeString, String.foldl_eq_foldl_toList, String.toList_append, hfold]
  rfl

/-- A written string is read as that string. -/
theorem spells_writeString (s : String) : Lexer.Spells (writeString s).toList [.text (some s)] := by
  intro before rest _
  obtain ⟨ps, hps, hread⟩ := Lexer.exists_pieces before [] s.toList ('"' :: rest)
  have hopen : Lexer.step ⟨before, .between⟩ '"' = some ⟨before, .text []⟩ := rfl
  have hclose : Lexer.step ⟨before, .text (ps.reverse ++ [])⟩ '"' =
      some ⟨.text (some s) :: before, .between⟩ := by
    have hs : (Piece.assemble ps).map String.ofList = some s := by
      rw [Piece.assemble_of_makes hps, Option.map_some, String.ofList_toList]
    rw [← hs]
    simp [Lexer.step]
  rw [toList_writeString, List.cons_append, List.cons_append, Lexer.tokensFrom?_cons, hopen,
    Option.bind_some, List.append_assoc, List.singleton_append, hread, Lexer.tokensFrom?_cons,
    hclose]
  rfl

end FilterPipeline.Json
