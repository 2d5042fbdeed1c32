import FilterPipeline.Proofs.WrittenFormulas

/-!
# Infix formulas with signs

`Infix` is the notation of numbers, names, operators and parentheses where every operand may have
signs of its own. A sign binds more tightly than every operator. Main statement: a text in this
notation is read as its formula within every limit as large as the text.
-/

namespace FilterPipeline.Formula

open Text

/-- The texts in infix notation with the formulas that they stand for. The level tells how tightly a
text binds: as its operator or, where there is none outside parentheses, more tightly than all.
`lead` is the exponent of the first factor where that is a power. -/
inductive Infix : (level : Nat) → (lead : Option Formula) → Formula → List Char → Prop
  | number {n : Numeral} (h : n.IsPlain) : Infix 4 none (.number n.toDouble) n.plainText
  | field {cs : List Char} (h : isIdentifier cs = true) :
      Infix 4 none (.field (String.ofList cs)) cs
  | parenthesised (before after : Nat) {level : Nat} {lead : Option Formula} {t : Formula}
      {cs : List Char} (h : Infix level lead t cs) :
      Infix 4 none t ('(' :: (List.replicate before ' ' ++ cs ++ List.replicate after ' ') ++ [')'])
  /-- A minus; directly before a number without sign it belongs to the number. -/
  | minus (spaces : Nat) {t : Formula} {cs : List Char} (h : Infix 4 none t cs)
      (hfirst : ∀ c, (List.replicate spaces ' ' ++ cs).head? = some c →
        c.isDigit = false ∧ c ≠ '.') :
      Infix 4 none (.negate t) ('-' :: (List.replicate spaces ' ' ++ cs))
  | plus (spaces : Nat) {t : Formula} {cs : List Char} (h : Infix 4 none t cs) :
      Infix 4 none t ('+' :: (List.replicate spaces ' ' ++ cs))
  | binary {op : BinaryOp} (before after : Nat) {p q : Nat} (hadmits : op.Admits p q)
      {lead other : Option Formula} {l r : Formula} {a b : List Char} (hl : Infix p lead l a)
      (hr : Infix q other r b) :
      Infix op.precedence (if op = .power then some r else lead) (.binary op l r)
        (a ++ List.replicate before ' ' ++ op.symbol :: (List.replicate after ' ' ++ b))

private theorem head?_collapseBlanks (cs : List Char) :
    (collapseBlanks false cs).head? = cs.head?.map fun c ↦ if isBlank c then ' ' else c := by
  cases cs with
  | nil => rfl
  | cons c cs =>
    rw [collapseBlanks]
    split
    · next hblank => simp [hblank]
    · next hblank => simp [hblank]

namespace Infix

variable {level : Nat} {lead : Option Formula} {t : Formula} {cs : List Char}

/-- A text in infix notation is an operand of its level. -/
theorem isOperand (h : Infix level lead t cs) : IsOperand level cs := by
  induction h with
  | number h => exact isOperand_plainText h
  | field h => exact isOperand_of_isIdentifier h
  | parenthesised before after _ ih => exact (ih.spaced before after).parenthesised
  | minus spaces _ _ ih => exact (ih.spaces_append spaces).minus_cons
  | plus spaces _ ih => exact @IsOperand.sign_cons _ _ .add rfl (ih.spaces_append spaces)
  | binary before after hadmits _ _ ihl ihr =>
    exact .binary hadmits (ihl.append_spaces before) (ihr.spaces_append after)

private theorem isTrimmed (h : Infix level lead t cs) : IsTrimmed cs := by
  have hsign : ∀ {c : Char} {cs : List Char} (spaces : Nat), isBlank c = false → cs ≠ [] →
      IsTrimmed cs → IsTrimmed (c :: (List.replicate spaces ' ' ++ cs)) := by
    intro c cs spaces hc hne hcs
    have hsingle : IsTrimmed [c] := .of_forall fun d hd ↦ List.mem_singleton.mp hd ▸ hc
    exact hsingle.append hcs (List.cons_ne_nil c []) hne (List.replicate spaces ' ')
  induction h with
  | number h => exact .of_forall fun c hc ↦ not_isBlank_of_mem_plainText h hc
  | field h =>
    apply IsTrimmed.of_forall
    exact fun c hc ↦ not_isBlank_of_isIdentifierChar (isIdentifierChar_of_isIdentifier h c hc)
  | parenthesised before after _ _ => exact .of_ends (by decide) (by decide) _
  | minus spaces h _ ih => exact hsign spaces (by decide) h.isOperand.ne_nil ih
  | plus spaces h ih => exact hsign spaces (by decide) h.isOperand.ne_nil ih
  | binary before after _ hl hr ihl ihr =>
    exact hl.isOperand.isTrimmed hr.isOperand ihl ihr before after

private theorem ofPlain_eq (h : Infix level lead t cs) {levels : Nat}
    (hlevels : cs.length ≤ levels) :
    ofPlain levels cs = t := by
  have hpos := List.length_pos_iff.mpr h.isOperand.ne_nil
  -- No text is empty, so one level more than the induction counts is there from the start.
  obtain ⟨levels, rfl⟩ : ∃ k, levels = k + 1 := ⟨levels - 1, by omega⟩
  clear hpos
  induction h generalizing levels with
  | number h => exact ofPlain_plainText h levels
  | field h => exact ofPlain_field h levels
  | parenthesised before after h ih =>
    simp only [List.length_append, List.length_cons, List.length_replicate] at hlevels
    rw [ofPlain_enclosed (h.isOperand.spaced before after), ofPlain_spaced]
    exact ih levels (by omega)
  | @minus spaces t cs h hfirst ih =>
    have hpos := List.length_pos_iff.mpr h.isOperand.ne_nil
    simp only [List.length_append, List.length_cons, List.length_replicate] at hlevels
    obtain ⟨levels, rfl⟩ : ∃ k, levels = k + 1 := ⟨levels - 1, by omega⟩
    have hnumber : numberLiteral? ('-' :: (List.replicate spaces ' ' ++ cs)) = none := by
      cases htext : List.replicate spaces ' ' ++ cs with
      | nil => exact absurd (List.append_eq_nil_iff.mp htext).2 h.isOperand.ne_nil
      | cons c rest =>
        obtain ⟨hdigit, hpoint⟩ := hfirst c (by rw [htext, List.head?_cons])
        exact numberLiteral?_minus_cons hdigit hpoint rest
    rw [ofPlain_minus (h.isOperand.spaces_append spaces) (h.minus spaces hfirst).isTrimmed hnumber,
      ofPlain_spaces_append, ih levels (by omega)]
  | plus spaces h ih =>
    have hpos := List.length_pos_iff.mpr h.isOperand.ne_nil
    simp only [List.length_append, List.length_cons, List.length_replicate] at hlevels
    obtain ⟨levels, rfl⟩ : ∃ k, levels = k + 1 := ⟨levels - 1, by omega⟩
    rw [ofPlain_plus (h.isOperand.spaces_append spaces) (h.plus spaces).isTrimmed,
      ofPlain_spaces_append, ih levels (by omega)]
  | @binary op before after p q hadmits _ _ l r a b hl hr ihl ihr =>
    have hleft := List.length_pos_iff.mpr hl.isOperand.ne_nil
    have hright := List.length_pos_iff.mpr hr.isOperand.ne_nil
    have htrimmed := (Infix.binary before after hadmits hl hr).isTrimmed
    simp only [List.length_append, List.length_cons, List.length_replicate] at hlevels
    obtain ⟨levels, rfl⟩ : ∃ k, levels = k + 1 := ⟨levels - 1, by omega⟩
    rw [ofPlain_binary (levels + 1) hadmits (hl.isOperand.append_spaces before)
      (hr.isOperand.spaces_append after) htrimmed, ofPlain_append_spaces, ofPlain_spaces_append,
      ihl levels (by omega), ihr levels (by omega)]

private theorem collapseBlanks (h : Infix level lead t cs) (afterBlank : Bool) :
    Infix level lead t (collapseBlanks afterBlank cs) := by
  induction h generalizing afterBlank with
  | number h =>
    rw [collapseBlanks_eq_self fun c hc ↦ not_isBlank_of_mem_plainText h hc]
    exact .number h
  | field h =>
    rw [collapseBlanks_eq_self fun c hc ↦
      not_isBlank_of_isIdentifierChar (isIdentifierChar_of_isIdentifier h c hc)]
    exact .field h
  | @parenthesised before after _ _ _ cs h ih =>
    have henclosed := collapseBlanks_enclosed []
      (List.replicate before ' ' ++ cs ++ List.replicate after ' ') afterBlank
    rw [List.nil_append, Formula.collapseBlanks, List.nil_append] at henclosed
    rw [henclosed, List.append_assoc]
    obtain ⟨m, later, hbefore⟩ := collapseBlanks_spaces_append before
      (cs ++ List.replicate after ' ') false
    obtain ⟨n, hafter⟩ := collapseBlanks_append_spaces cs after later
    rw [hbefore, hafter, ← List.append_assoc]
    exact .parenthesised m n (ih later)
  | @minus spaces _ cs h hfirst ih =>
    obtain ⟨m, later, hspaces⟩ := collapseBlanks_spaces_append spaces cs false
    have hshrunk : Formula.collapseBlanks afterBlank ('-' :: (List.replicate spaces ' ' ++ cs)) =
        '-' :: Formula.collapseBlanks false (List.replicate spaces ' ' ++ cs) := rfl
    rw [hshrunk, hspaces]
    apply Infix.minus m (ih later)
    rw [← hspaces, head?_collapseBlanks]
    intro c hc
    obtain ⟨d, hd, rfl⟩ := Option.map_eq_some_iff.mp hc
    split
    · decide
    · exact hfirst d hd
  | @plus spaces _ cs h ih =>
    obtain ⟨m, later, hspaces⟩ := collapseBlanks_spaces_append spaces cs false
    have hshrunk : Formula.collapseBlanks afterBlank ('+' :: (List.replicate spaces ' ' ++ cs)) =
        '+' :: Formula.collapseBlanks false (List.replicate spaces ' ' ++ cs) := rfl
    rw [hshrunk, hspaces]
    exact .plus m (ih later)
  | @binary op before after p q hadmits _ _ l r a b hl hr ihl ihr =>
    have hsymbol : isBlank op.symbol = false := by cases op <;> decide
    obtain ⟨m, hbefore⟩ := collapseBlanks_append_spaces a before afterBlank
    obtain ⟨n, later, hafter⟩ := collapseBlanks_spaces_append after b false
    rw [collapseBlanks_append_cons hsymbol, hbefore, hafter]
    exact .binary m n hadmits (ihl afterBlank) (ihr later)

end Infix

private theorem length_collapseBlanks_le (afterBlank : Bool) (cs : List Char) :
    (collapseBlanks afterBlank cs).length ≤ cs.length := by
  induction cs generalizing afterBlank with
  | nil => exact Nat.le_refl _
  | cons c cs ih =>
    have hblank := ih true
    have hother := ih false
    rw [collapseBlanks]
    split
    · split
      · exact Nat.le_succ_of_le hblank
      · exact Nat.succ_le_succ hblank
    · exact Nat.succ_le_succ hother

/-- A text in infix notation is read as its formula within every limit as large as the text. -/
theorem parseWithin_infixText {level limit : Nat} {lead : Option Formula} {t : Formula} {s : String}
    (h : Infix level lead t s.toList) (hlimit : s.length ≤ limit) : parseWithin limit s = t := by
  have hplain := h.isOperand.plain
  have hexpand := expandFractions_eq_self (not_mem_of_plain hplain (by decide)) limit
  have hlength := length_collapseBlanks_le false s.toList
  rw [String.length_toList] at hlength
  rw [parseWithin, cleanWithin_of_plain hexpand hplain, ofPlain_trim]
  exact (h.collapseBlanks false).ofPlain_eq (by omega)

end FilterPipeline.Formula
