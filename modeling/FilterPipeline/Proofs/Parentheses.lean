import FilterPipeline.Proofs.FormulaTokens

/-!
# Brackets that belong together

Reading a formula looks for the bracket that closes another one in three ways: by walking on from
it, by one pass over the text with a stack, and by counting from the right. Here they are related
to `closingAt?`, the place where a text closes a bracket that was opened before it. Main statements:
the stack finds that place for every parenthesis, and taking all wrapping parentheses off a text at
once is taking them off one layer after the other.
-/

namespace FilterPipeline.Formula

open Text

section Brackets

variable {opening closing : Char}

/-- The place in a text of the bracket that closes one opened before it, when `depth` others are
open inside that one. -/
def closingAt? (opening closing : Char) : (depth : Nat) → List Char → Option Nat
  | _, [] => none
  | depth, c :: cs =>
    if c = opening then (closingAt? opening closing (depth + 1) cs).map (· + 1)
    else if c = closing then
      match depth with
      | 0 => some 0
      | depth + 1 => (closingAt? opening closing depth cs).map (· + 1)
    else (closingAt? opening closing depth cs).map (· + 1)

/-- Behind an opening bracket one more is open. -/
theorem closingAt?_opening (depth : Nat) (cs : List Char) :
    closingAt? opening closing depth (opening :: cs) =
      (closingAt? opening closing (depth + 1) cs).map (· + 1) := by
  simp only [closingAt?, if_true]

/-- A character that is no bracket is passed over. -/
theorem closingAt?_other {c : Char} (hopening : c ≠ opening) (hclosing : c ≠ closing)
    (depth : Nat) (cs : List Char) :
    closingAt? opening closing depth (c :: cs) =
      (closingAt? opening closing depth cs).map (· + 1) := by
  simp only [closingAt?, if_neg hopening, if_neg hclosing]

/-- Walking on to the closing bracket finds its place. -/
theorem splitClose_eq (depth : Nat) (gathered cs : List Char) :
    splitClose opening closing (depth + 1) gathered cs =
      (closingAt? opening closing depth cs).map fun k ↦
        (gathered.reverse ++ cs.take k, cs.drop (k + 1)) := by
  induction cs generalizing depth gathered with
  | nil => rfl
  | cons c cs ih =>
    have hstep : ∀ depth, splitClose opening closing (depth + 1) (c :: gathered) cs =
        ((closingAt? opening closing depth cs).map (· + 1)).map fun k ↦
          (gathered.reverse ++ (c :: cs).take k, (c :: cs).drop (k + 1)) := by
      intro depth
      rw [ih, Option.map_map]
      congr 1
      funext k
      simp
    simp only [splitClose, closingAt?]
    split
    · exact hstep (depth + 1)
    · split
      · cases depth with
        | zero => simp
        | succ depth => exact hstep depth
      · exact hstep depth

/-- A bracket closed within a text is closed there whatever follows, and none is closed there only
because of what follows. -/
theorem closingAt?_append_iff {depth k : Nat} {a : List Char} (b : List Char) (hk : k < a.length) :
    closingAt? opening closing depth (a ++ b) = some k ↔
      closingAt? opening closing depth a = some k := by
  induction a generalizing depth k with
  | nil => cases hk
  | cons c a ih =>
    have hstep : ∀ depth, (closingAt? opening closing depth (a ++ b)).map (· + 1) = some k ↔
        (closingAt? opening closing depth a).map (· + 1) = some k := by
      intro depth
      cases k with
      | zero => simp
      | succ k => simpa using ih (Nat.lt_of_succ_lt_succ hk)
    simp only [List.cons_append, closingAt?]
    split
    · exact hstep (depth + 1)
    · split
      · cases depth with
        | zero => rfl
        | succ depth => exact hstep depth
      · exact hstep depth

private theorem lt_length_of_closingAt? {depth k : Nat} {cs : List Char}
    (h : closingAt? opening closing depth cs = some k) : k < cs.length := by
  induction cs generalizing depth k with
  | nil => cases h
  | cons c cs ih =>
    have hstep : ∀ depth, (closingAt? opening closing depth cs).map (· + 1) = some k →
        k < (c :: cs).length := by
      intro depth h
      obtain ⟨l, hl, rfl⟩ := Option.map_eq_some_iff.mp h
      exact Nat.succ_lt_succ (ih hl)
    simp only [closingAt?] at h
    split at h
    · exact hstep _ h
    · split at h
      · cases depth with
        | zero =>
          cases h
          exact Nat.succ_pos _
        | succ depth => exact hstep _ h
      · exact hstep _ h

/-- A text whose brackets belong together in pairs. -/
inductive IsBalanced (opening closing : Char) : List Char → Prop
  | nil : IsBalanced opening closing []
  | char {c : Char} (hopening : c ≠ opening) (hclosing : c ≠ closing) :
    IsBalanced opening closing [c]
  | append {a b : List Char} (ha : IsBalanced opening closing a)
    (hb : IsBalanced opening closing b) : IsBalanced opening closing (a ++ b)
  | enclosed {cs : List Char} (h : IsBalanced opening closing cs) :
    IsBalanced opening closing (opening :: cs ++ [closing])

namespace IsBalanced

/-- A text without brackets is balanced. -/
theorem of_forall {cs : List Char} (h : ∀ c ∈ cs, c ≠ opening ∧ c ≠ closing) :
    IsBalanced opening closing cs := by
  induction cs with
  | nil => exact .nil
  | cons c cs ih =>
    rw [List.forall_mem_cons] at h
    exact .append (.char h.1.1 h.1.2) (ih h.2)

private theorem closingAt?_append {a : List Char} (h : IsBalanced opening closing a)
    (hne : opening ≠ closing) (depth : Nat) (b : List Char) :
    closingAt? opening closing depth (a ++ b) =
      (closingAt? opening closing depth b).map (a.length + ·) := by
  induction h generalizing depth b with
  | nil => simp
  | char hopening hclosing =>
    rw [List.singleton_append, closingAt?_other hopening hclosing]
    simp only [List.length_singleton, Nat.add_comm]
  | append _ _ iha ihb =>
    rw [List.append_assoc, iha, ihb, Option.map_map]
    congr 1
    funext k
    simp [Nat.add_assoc]
  | @enclosed cs _ ih =>
    have htext : opening :: cs ++ [closing] ++ b = opening :: (cs ++ closing :: b) := by simp
    rw [htext, closingAt?_opening, ih]
    simp only [closingAt?, if_neg (Ne.symm hne), if_true, Option.map_map]
    congr 1
    funext k
    simp only [Function.comp_apply, List.length_append, List.length_cons, List.length_nil]
    omega

/-- The bracket that encloses a balanced text is closed right behind it. -/
theorem closingAt?_closing {a : List Char} (h : IsBalanced opening closing a)
    (hne : opening ≠ closing) (b : List Char) :
    closingAt? opening closing 0 (a ++ closing :: b) = some a.length := by
  rw [h.closingAt?_append hne]
  simp [closingAt?, Ne.symm hne]

/-- As many brackets are opened as are closed. -/
theorem count_eq {cs : List Char} (h : IsBalanced opening closing cs) (hne : opening ≠ closing) :
    cs.count opening = cs.count closing := by
  induction h with
  | nil => rfl
  | char hopening hclosing => simp [hopening, hclosing]
  | append _ _ iha ihb => rw [List.count_append, List.count_append, iha, ihb]
  | enclosed _ ih => simp [ih, hne, Ne.symm hne]

private theorem enclosed_eq_append {cs x y : List Char}
    (h : opening :: cs ++ [closing] = x ++ y) :
    x = [] ∨ y = [] ∨ ∃ x' y', x = opening :: x' ∧ y = y' ++ [closing] ∧ cs = x' ++ y' := by
  cases x with
  | nil => exact .inl rfl
  | cons c x =>
    right
    rcases List.eq_nil_or_concat y with rfl | ⟨y, d, rfl⟩
    · exact .inl rfl
    · right
      rw [List.concat_eq_append] at h ⊢
      rw [List.cons_append, List.cons_append, List.cons.injEq, ← List.append_assoc] at h
      obtain ⟨rfl, h⟩ := h
      obtain ⟨rfl, hd⟩ := List.append_inj' h rfl
      rw [hd]
      exact ⟨x, y, rfl, rfl, rfl⟩

/-- No end of a balanced text opens more brackets than it closes. -/
theorem count_le_of_suffix {cs : List Char} (h : IsBalanced opening closing cs)
    (hne : opening ≠ closing) {x y : List Char} (hcs : cs = x ++ y) :
    y.count opening ≤ y.count closing := by
  induction h generalizing x y with
  | nil =>
    rw [(List.append_eq_nil_iff.mp hcs.symm).2]
    exact Nat.le_refl _
  | @char c hopening hclosing =>
    have hy : y.count opening ≤ [c].count opening := by
      rw [hcs]
      exact (List.sublist_append_right x y).count_le opening
    rw [List.count_singleton, if_neg (by simpa using hopening)] at hy
    exact Nat.le_trans hy (Nat.zero_le _)
  | @append a b ha hb iha ihb =>
    rcases List.append_eq_append_iff.mp hcs with ⟨z, -, hz⟩ | ⟨z, hz, rfl⟩
    · exact ihb hz
    · rw [List.count_append, List.count_append, hb.count_eq hne]
      exact Nat.add_le_add_right (iha hz) _
  | @enclosed cs h ih =>
    rcases enclosed_eq_append hcs with rfl | rfl | ⟨x', y', rfl, rfl, hinside⟩
    · rw [List.nil_append] at hcs
      rw [← hcs]
      exact Nat.le_of_eq (h.enclosed.count_eq hne)
    · exact Nat.le_refl _
    · have hle := ih hinside
      simp only [List.count_append, List.count_singleton]
      simp [Ne.symm hne]
      omega

/-- Every bracket opened in a balanced text is closed in it. -/
theorem exists_closing {cs : List Char} (h : IsBalanced opening closing cs)
    (hne : opening ≠ closing) {x y : List Char} (hcs : cs = x ++ opening :: y) :
    ∃ inside after, y = inside ++ closing :: after ∧ IsBalanced opening closing inside := by
  induction h generalizing x y with
  | nil => simp at hcs
  | @char c hopening hclosing =>
    have hmem : opening ∈ [c] := by
      rw [hcs]
      exact List.mem_append_right x List.mem_cons_self
    exact absurd (List.mem_singleton.mp hmem).symm hopening
  | @append a b ha hb iha ihb =>
    rcases List.append_eq_append_iff.mp hcs with ⟨z, -, hz⟩ | ⟨z, hz, hy⟩
    · exact ihb hz
    · cases z with
      | nil => exact ihb (x := []) hy.symm
      | cons c z =>
        rw [List.cons_append, List.cons.injEq] at hy
        obtain ⟨rfl, rfl⟩ := hy
        obtain ⟨inside, after, rfl, hin⟩ := iha hz
        exact ⟨inside, after ++ b, by simp, hin⟩
  | @enclosed cs h ih =>
    rcases enclosed_eq_append hcs with rfl | hy | ⟨x', y', rfl, hy, hinside⟩
    · rw [List.nil_append, List.cons_append, List.cons.injEq] at hcs
      exact ⟨cs, [], hcs.2.symm, h⟩
    · cases hy
    · cases y' with
      | nil =>
        rw [List.nil_append, List.cons.injEq] at hy
        exact absurd hy.1 hne
      | cons c y' =>
        rw [List.cons_append, List.cons.injEq] at hy
        obtain ⟨rfl, rfl⟩ := hy
        obtain ⟨inside, after, rfl, hin⟩ := ih hinside
        exact ⟨inside, after ++ [closing], by simp, hin⟩

end IsBalanced
/-- The closing bracket that ends a text closes one opened before it exactly when walking on to that
one leaves nothing behind. -/
theorem splitClose_eq_some_nil_iff {cs inside : List Char} :
    splitClose opening closing 1 [] cs = some (inside, []) ↔
      cs = inside ++ [closing] ∧
        closingAt? opening closing 0 (inside ++ [closing]) = some inside.length := by
  constructor
  · intro h
    obtain ⟨read, hread, hcs⟩ := eq_of_splitClose h
    rw [List.reverse_nil, List.nil_append] at hread
    subst hread
    refine ⟨hcs, ?_⟩
    rw [splitClose_eq, hcs] at h
    obtain ⟨k, hk, hsplit⟩ := Option.map_eq_some_iff.mp h
    have hlt := lt_length_of_closingAt? hk
    have hlen := congrArg List.length (Prod.mk.inj hsplit).1
    rw [List.reverse_nil, List.nil_append, List.length_take,
      Nat.min_eq_left (Nat.le_of_lt hlt)] at hlen
    rw [hk, hlen]
  · rintro ⟨rfl, hclose⟩
    rw [splitClose_eq, hclose]
    simp

end Brackets

/-! ### The stack of open parentheses -/

/-- Reads one character with its position: an opening parenthesis is put on the stack, a closing one
is noted for the one that it takes off. -/
def partnerStep (state : List Nat × Array (Option Nat)) (item : Char × Nat) :
    List Nat × Array (Option Nat) :=
  if item.1 = '(' then (item.2 :: state.1, state.2)
  else if item.1 = ')' then
    match state.1 with
    | [] => ([], state.2)
    | opening :: stack => (stack, state.2.setIfInBounds opening (some item.2))
  else state

private theorem partners_eq (cs : List Char) :
    partners cs = (cs.zipIdx.foldl partnerStep ([], Array.replicate cs.length none)).2 := by
  rfl

/-- What holds before position `n` is read: the stack holds different positions that have been read,
and neither for them nor for those still to be read is a partner noted. -/
structure IsStackAt (n : Nat) (stack : List Nat) (found : Array (Option Nat)) : Prop where
  below : ∀ o ∈ stack, o < n
  nodup : stack.Nodup
  unset : ∀ o ∈ stack, found[o]? = some none
  ahead : ∀ o, n ≤ o → o < found.size → found[o]? = some none

namespace IsStackAt

variable {n : Nat} {stack : List Nat} {found : Array (Option Nat)}

private theorem next (h : IsStackAt n stack found) : IsStackAt (n + 1) stack found where
  below o ho := Nat.lt_succ_of_lt (h.below o ho)
  nodup := h.nodup
  unset := h.unset
  ahead o ho := h.ahead o (Nat.le_of_succ_le ho)

private theorem push (h : IsStackAt n stack found) (hsize : n < found.size) :
    IsStackAt (n + 1) (n :: stack) found where
  below := by
    rw [List.forall_mem_cons]
    exact ⟨Nat.lt_succ_self n, fun o ho ↦ Nat.lt_succ_of_lt (h.below o ho)⟩
  nodup := List.nodup_cons.mpr ⟨fun hn ↦ Nat.lt_irrefl n (h.below n hn), h.nodup⟩
  unset := by
    rw [List.forall_mem_cons]
    exact ⟨h.ahead n (Nat.le_refl n) hsize, h.unset⟩
  ahead o ho := h.ahead o (Nat.le_of_succ_le ho)

private theorem pop {o : Nat} (h : IsStackAt n (o :: stack) found) :
    IsStackAt (n + 1) stack (found.setIfInBounds o (some n)) where
  below p hp := Nat.lt_succ_of_lt (h.below p (List.mem_cons_of_mem o hp))
  nodup := (List.nodup_cons.mp h.nodup).2
  unset p hp := by
    have hne : o ≠ p := fun he ↦ (List.nodup_cons.mp h.nodup).1 (he ▸ hp)
    rw [Array.getElem?_setIfInBounds_ne hne]
    exact h.unset p (List.mem_cons_of_mem o hp)
  ahead p hp hsize := by
    have ho := h.below o List.mem_cons_self
    have hne : o ≠ p := by omega
    rw [Array.getElem?_setIfInBounds_ne hne]
    rw [Array.size_setIfInBounds] at hsize
    exact h.ahead p (Nat.le_of_succ_le hp) hsize

end IsStackAt

/-- What reading a text from position `n` on has noted in the end: where the text closes the
parentheses on the stack and those that it opens, and nothing else before `n`. -/
structure Notes (final found : Array (Option Nat)) (n : Nat) (stack : List Nat)
    (cs : List Char) : Prop where
  stacked : ∀ j o, stack[j]? = some o → final[o]? = some ((closingAt? '(' ')' j cs).map (n + ·))
  settled : ∀ o, o < n → o ∉ stack → final[o]? = found[o]?
  opened : ∀ i, cs[i]? = some '(' →
    final[n + i]? = some ((closingAt? '(' ')' 0 (cs.drop (i + 1))).map (n + i + 1 + ·))

namespace Notes

variable {final found : Array (Option Nat)} {n : Nat} {stack : List Nat} {cs : List Char}

private theorem map_succ (n : Nat) (k : Option Nat) :
    (k.map (· + 1)).map (n + ·) = k.map (n + 1 + ·) := by
  rw [Option.map_map]
  congr 1
  funext m
  simp only [Function.comp_apply]
  omega

/-- What is noted for the parentheses opened later stays noted. -/
theorem opened_cons (h : Notes final found (n + 1) stack cs) (c : Char) (i : Nat)
    (hi : (c :: cs)[i + 1]? = some '(') :
    final[n + (i + 1)]? =
      some ((closingAt? '(' ')' 0 ((c :: cs).drop (i + 1 + 1))).map (n + (i + 1) + 1 + ·)) := by
  have hopened := h.opened i hi
  rw [show n + 1 + i = n + (i + 1) by omega] at hopened
  exact hopened

private theorem push (h : Notes final found (n + 1) (n :: stack) cs) :
    Notes final found n stack ('(' :: cs) where
  stacked j o ho := by
    rw [closingAt?_opening, map_succ]
    exact h.stacked (j + 1) o ho
  settled o ho hstack := by
    refine h.settled o (Nat.lt_succ_of_lt ho) fun hmem ↦ ?_
    rcases List.mem_cons.mp hmem with rfl | hmem
    · exact Nat.lt_irrefl o ho
    · exact hstack hmem
  opened i hi := by
    cases i with
    | zero => exact h.stacked 0 n rfl
    | succ i => exact h.opened_cons '(' i hi

private theorem pop {o : Nat} (hstack : IsStackAt n (o :: stack) found) (hsize : n < found.size)
    (h : Notes final (found.setIfInBounds o (some n)) (n + 1) stack cs) :
    Notes final found n (o :: stack) (')' :: cs) where
  stacked j p hp := by
    cases j with
    | zero =>
      rw [List.getElem?_cons_zero, Option.some.injEq] at hp
      subst hp
      have ho := hstack.below o List.mem_cons_self
      rw [h.settled o (Nat.lt_succ_of_lt ho) (List.nodup_cons.mp hstack.nodup).1,
        Array.getElem?_setIfInBounds_self_of_lt (Nat.lt_trans ho hsize)]
      rfl
    | succ j =>
      simp only [closingAt?, show ¬ ')' = '(' by decide, if_false, if_true, map_succ]
      exact h.stacked j p hp
  settled p hp hmem := by
    rw [List.mem_cons, not_or] at hmem
    rw [h.settled p (Nat.lt_succ_of_lt hp) hmem.2, Array.getElem?_setIfInBounds_ne (Ne.symm hmem.1)]
  opened i hi := by
    cases i with
    | zero => cases hi
    | succ i => exact h.opened_cons ')' i hi

private theorem unmatched (h : Notes final found (n + 1) [] cs) :
    Notes final found n [] (')' :: cs) where
  stacked j o ho := by simp at ho
  settled o ho := h.settled o (Nat.lt_succ_of_lt ho)
  opened i hi := by
    cases i with
    | zero => cases hi
    | succ i => exact h.opened_cons ')' i hi

private theorem other {c : Char} (hopening : c ≠ '(') (hclosing : c ≠ ')')
    (h : Notes final found (n + 1) stack cs) : Notes final found n stack (c :: cs) where
  stacked j o ho := by
    rw [closingAt?_other hopening hclosing, map_succ]
    exact h.stacked j o ho
  settled o ho := h.settled o (Nat.lt_succ_of_lt ho)
  opened i hi := by
    cases i with
    | zero => exact absurd (Option.some.inj hi) hopening
    | succ i => exact h.opened_cons c i hi

end Notes

private theorem notes_foldl_partnerStep {cs : List Char} {n : Nat} {stack : List Nat}
    {found : Array (Option Nat)} (h : IsStackAt n stack found)
    (hsize : n + cs.length ≤ found.size) :
    Notes ((cs.zipIdx n).foldl partnerStep (stack, found)).2 found n stack cs := by
  induction cs generalizing n stack found with
  | nil => exact ⟨fun j o ho ↦ h.unset o (List.mem_of_getElem? ho), fun _ _ _ ↦ rfl, by simp⟩
  | cons c cs ih =>
    rw [List.length_cons] at hsize
    have hn : n < found.size := by omega
    rw [List.zipIdx_cons, List.foldl_cons]
    by_cases hopening : c = '('
    · subst hopening
      rw [partnerStep, if_pos rfl]
      refine .push (ih (h.push hn) ?_)
      dsimp only
      omega
    · by_cases hclosing : c = ')'
      · subst hclosing
        rw [partnerStep, if_neg hopening, if_pos rfl]
        cases stack with
        | nil =>
          refine .unmatched (ih h.next ?_)
          dsimp only
          omega
        | cons o stack =>
          refine .pop h hn (ih h.pop ?_)
          rw [Array.size_setIfInBounds]
          dsimp only
          omega
      · rw [partnerStep, if_neg hopening, if_neg hclosing]
        refine .other hopening hclosing (ih h.next ?_)
        omega

private theorem partners_of_opening {cs : List Char} {o : Nat} (h : cs[o]? = some '(') :
    (partners cs)[o]? = some ((closingAt? '(' ')' 0 (cs.drop (o + 1))).map (o + 1 + ·)) := by
  have hstack : IsStackAt 0 [] (Array.replicate cs.length none) := by
    refine ⟨by simp, List.nodup_nil, by simp, fun o _ ho ↦ ?_⟩
    rw [Array.size_replicate] at ho
    simp [ho]
  have hnotes : Notes (partners cs) (Array.replicate cs.length none) 0 [] cs := by
    rw [partners_eq]
    exact notes_foldl_partnerStep hstack (by simp)
  simpa only [Nat.zero_add] using hnotes.opened o h

/-! ### Taking off the wrapping parentheses -/

section OuterPositions

variable {parenthesis : Char}

/-- The run of parentheses and spaces at the start is read character by character. -/
theorem outerPositions_cons (hp : parenthesis ≠ ' ') (c : Char) (i : Nat) (cs : List (Char × Nat)) :
    outerPositions parenthesis ((c, i) :: cs) =
      if c = parenthesis then i :: outerPositions parenthesis cs
      else if c = ' ' then outerPositions parenthesis cs else [] := by
  by_cases hc : c = parenthesis
  · simp [outerPositions, hc]
  · by_cases hspace : c = ' '
    · simp [outerPositions, hspace, Ne.symm hp]
    · simp [outerPositions, hc, hspace]

private theorem outerPositions_spaces_append (hp : parenthesis ≠ ' ') {spaces : List (Char × Nat)}
    (h : ∀ x ∈ spaces, x.1 = ' ') (cs : List (Char × Nat)) :
    outerPositions parenthesis (spaces ++ cs) = outerPositions parenthesis cs := by
  induction spaces with
  | nil => rfl
  | cons x spaces ih =>
    rw [List.forall_mem_cons] at h
    obtain ⟨c, i⟩ := x
    have hc : c = ' ' := h.1
    rw [List.cons_append, outerPositions_cons hp, hc, if_neg (Ne.symm hp), if_pos rfl]
    exact ih h.2

private theorem outerPositions_append_of_eq_nil (hp : parenthesis ≠ ' ') (cs : List (Char × Nat))
    {rest : List (Char × Nat)} (h : outerPositions parenthesis rest = []) :
    outerPositions parenthesis (cs ++ rest) = outerPositions parenthesis cs := by
  induction cs with
  | nil => exact h
  | cons x cs ih =>
    obtain ⟨c, i⟩ := x
    rw [List.cons_append, outerPositions_cons hp, outerPositions_cons hp, ih]

private theorem outerPositions_map_add (hp : parenthesis ≠ ' ') (k : Nat) (cs : List (Char × Nat)) :
    outerPositions parenthesis (cs.map fun x ↦ (x.1, k + x.2)) =
      (outerPositions parenthesis cs).map (k + ·) := by
  induction cs with
  | nil => rfl
  | cons x cs ih =>
    obtain ⟨c, i⟩ := x
    rw [List.map_cons, outerPositions_cons hp, outerPositions_cons hp, ih]
    split
    · rfl
    · split <;> rfl

private theorem outerPositions_layer (hp : parenthesis ≠ ' ') {other : Char}
    (hother : other ≠ parenthesis) (hspace : other ≠ ' ') {first last : List (Char × Nat)}
    (hfirst : ∀ x ∈ first, x.1 = ' ') (hlast : ∀ x ∈ last, x.1 = ' ') (i j k : Nat)
    (cs : List (Char × Nat)) :
    outerPositions parenthesis ((parenthesis, i) ::
        (first ++ (cs.map (fun x ↦ (x.1, k + x.2)) ++ (last ++ [(other, j)])))) =
      i :: (outerPositions parenthesis cs).map (k + ·) := by
  have hend : outerPositions parenthesis (last ++ [(other, j)]) = [] := by
    rw [outerPositions_spaces_append hp hlast, outerPositions_cons hp, if_neg hother, if_neg hspace]
  rw [outerPositions_cons hp, if_pos rfl, outerPositions_spaces_append hp hfirst,
    outerPositions_append_of_eq_nil hp _ hend, outerPositions_map_add hp]

end OuterPositions

/-- Whether an opening parenthesis and a closing one behind it belong together. -/
def areWrapping (cs : List Char) (pair : Nat × Nat) : Bool :=
  pair.1 < pair.2 && (partners cs)[pair.1]?.join == some pair.2

/-- The wrapping pairs are made from the outside inwards, as long as they belong together. -/
theorem wrappingPairs_eq (cs : List Char) :
    wrappingPairs cs =
      ((outerPositions '(' cs.zipIdx).zip (outerPositions ')' cs.zipIdx.reverse)).takeWhile
        (areWrapping cs) := by
  rfl

/-- An opening parenthesis belongs to the closing one where the text behind it closes one. -/
theorem areWrapping_iff {cs : List Char} {o : Nat} (h : cs[o]? = some '(') (j : Nat) :
    areWrapping cs (o, o + 1 + j) = true ↔ closingAt? '(' ')' 0 (cs.drop (o + 1)) = some j := by
  rw [areWrapping, Bool.and_eq_true, decide_eq_true_eq, beq_iff_eq, partners_of_opening h,
    Option.join_some]
  constructor
  · rintro ⟨-, hj⟩
    obtain ⟨k, hk, hkj⟩ := Option.map_eq_some_iff.mp hj
    rw [hk, Nat.add_left_cancel hkj]
  · intro hj
    rw [hj]
    exact ⟨by dsimp only; omega, rfl⟩

private theorem areWrapping_append {first middle last : List Char} {o c : Nat}
    (ho : middle[o]? = some '(') (hc : c < middle.length) :
    areWrapping (first ++ (middle ++ last)) (first.length + o, first.length + c) =
      areWrapping middle (o, c) := by
  by_cases hlt : o < c
  · obtain ⟨j, rfl⟩ := Nat.exists_eq_add_of_lt hlt
    have hwhole : (first ++ (middle ++ last))[first.length + o]? = some '(' := by
      rw [List.getElem?_append_right (Nat.le_add_right _ _), Nat.add_sub_cancel_left,
        List.getElem?_append_left (by omega), ho]
    have hdrop : (first ++ (middle ++ last)).drop (first.length + o + 1) =
        middle.drop (o + 1) ++ last := by
      rw [Nat.add_assoc, ← List.drop_drop, List.drop_left, List.drop_append_of_le_length (by omega)]
    rw [show o + j + 1 = o + 1 + j by omega,
      show first.length + (o + 1 + j) = first.length + o + 1 + j by omega, Bool.eq_iff_iff,
      areWrapping_iff hwhole, areWrapping_iff ho, hdrop]
    apply closingAt?_append_iff
    rw [List.length_drop]
    omega
  · have hlt' : ¬ first.length + o < first.length + c := by omega
    simp only [areWrapping, hlt, hlt', decide_false, Bool.false_and]

private theorem takeWhile_map_congr {α β : Type} {f : α → β} {p : β → Bool} {q : α → Bool}
    {l : List α} (h : ∀ x ∈ l, p (f x) = q x) : (l.map f).takeWhile p = (l.takeWhile q).map f := by
  induction l with
  | nil => rfl
  | cons x l ih =>
    rw [List.forall_mem_cons] at h
    rw [List.map_cons, List.takeWhile_cons, List.takeWhile_cons, h.1, ih h.2]
    split <;> rfl

section Layers

variable {before middle after : List Char}

private theorem zipIdx_layer (before middle after : List Char) :
    ('(' :: (before ++ middle ++ after) ++ [')']).zipIdx =
      ('(', 0) :: (before.zipIdx 1 ++
        (middle.zipIdx.map (fun x ↦ (x.1, before.length + 1 + x.2)) ++
          (after.zipIdx (before.length + 1 + middle.length) ++
            [(')', (before ++ middle ++ after).length + 1)]))) := by
  have hmiddle := List.zipIdx_eq_map_add (l := middle) (i := before.length + 1)
  simp only [List.cons_append, List.zipIdx_cons, List.append_assoc, List.zipIdx_append,
    List.zipIdx_nil, List.length_append]
  rw [Nat.zero_add, Nat.add_comm 1 before.length, hmiddle]
  congr 6
  omega

private theorem wrappingPairs_layer (hbefore : ∀ c ∈ before, c = ' ')
    (hafter : ∀ c ∈ after, c = ' ')
    (hclose : closingAt? '(' ')' 0 (before ++ middle ++ after ++ [')']) =
      some (before ++ middle ++ after).length) :
    wrappingPairs ('(' :: (before ++ middle ++ after) ++ [')']) =
      (0, (before ++ middle ++ after).length + 1) ::
        (wrappingPairs middle).map
          (Prod.map (before.length + 1 + ·) (before.length + 1 + ·)) := by
  have hspaces : ∀ {cs : List Char} (n : Nat), (∀ c ∈ cs, c = ' ') → ∀ x ∈ cs.zipIdx n, x.1 = ' ' :=
    fun n h x hx ↦ h x.1 (List.fst_mem_of_mem_zipIdx hx)
  have hleading : outerPositions '(' ('(' :: (before ++ middle ++ after) ++ [')']).zipIdx =
      0 :: (outerPositions '(' middle.zipIdx).map (before.length + 1 + ·) := by
    rw [zipIdx_layer]
    exact outerPositions_layer (by decide) (by decide) (by decide) (hspaces 1 hbefore)
      (hspaces _ hafter) _ _ _ _
  have htrailing : outerPositions ')' ('(' :: (before ++ middle ++ after) ++ [')']).zipIdx.reverse =
      ((before ++ middle ++ after).length + 1) ::
        (outerPositions ')' middle.zipIdx.reverse).map (before.length + 1 + ·) := by
    rw [zipIdx_layer]
    simp only [List.reverse_cons, List.reverse_append, List.append_assoc, List.reverse_nil,
      List.nil_append, List.cons_append, ← List.map_reverse]
    exact outerPositions_layer (by decide) (by decide) (by decide)
      (fun x hx ↦ hspaces _ hafter x (List.mem_reverse.mp hx))
      (fun x hx ↦ hspaces _ hbefore x (List.mem_reverse.mp hx)) _ _ _ _
  rw [wrappingPairs_eq, hleading, htrailing, List.zip_cons_cons, List.takeWhile_cons, if_pos,
    List.zip_map, wrappingPairs_eq]
  · congr 1
    apply takeWhile_map_congr
    intro x hx
    obtain ⟨o, c⟩ := x
    obtain ⟨ho, hc⟩ := List.of_mem_zip hx
    have ho := List.mem_zipIdx_iff_getElem?.mp (mem_of_mem_outerPositions ho)
    have hc := List.mem_zipIdx_iff_getElem?.mp
      (List.mem_reverse.mp (mem_of_mem_outerPositions hc))
    have hlayer : areWrapping ('(' :: before ++ (middle ++ (after ++ [')'])))
        (('(' :: before).length + o, ('(' :: before).length + c) = areWrapping middle (o, c) :=
      areWrapping_append ho (List.getElem?_eq_some_iff.mp hc).1
    have htext : '(' :: before ++ (middle ++ (after ++ [')'])) =
        '(' :: (before ++ middle ++ after) ++ [')'] := by simp
    rw [htext, List.length_cons] at hlayer
    exact hlayer
  · have hopening : ('(' :: (before ++ middle ++ after) ++ [')'])[0]? = some '(' := rfl
    have hlayer := areWrapping_iff hopening (before ++ middle ++ after).length
    rw [Nat.zero_add, Nat.add_comm 1] at hlayer
    exact hlayer.mpr hclose

private theorem stripParentheses_layer (hbefore : ∀ c ∈ before, c = ' ')
    (hafter : ∀ c ∈ after, c = ' ') (htrim : trim (before ++ middle ++ after) = middle)
    (hclose : closingAt? '(' ')' 0 (before ++ middle ++ after ++ [')']) =
      some (before ++ middle ++ after).length) :
    stripParentheses ('(' :: (before ++ middle ++ after) ++ [')']) = stripParentheses middle := by
  rw [stripParentheses, wrappingPairs_layer hbefore hafter hclose, List.getLast?_cons,
    List.getLast?_map, stripParentheses]
  cases hlast : (wrappingPairs middle).getLast? with
  | none =>
    dsimp only [Option.map_none, Option.getD_none]
    rw [List.cons_append, List.take_succ_cons, List.take_left, List.drop_succ_cons, List.drop_zero,
      htrim]
  | some pair =>
    obtain ⟨o, c⟩ := pair
    dsimp only [Option.map_some, Option.getD_some, Prod.map_apply]
    obtain ⟨-, -, hc⟩ := of_mem_wrappingPairs (List.mem_of_getLast? hlast)
    have hc := (List.getElem?_eq_some_iff.mp hc).1
    have htext : '(' :: (before ++ middle ++ after) ++ [')'] =
        ('(' :: before) ++ (middle ++ (after ++ [')'])) := by simp
    rw [htext, ← List.length_cons (a := '('), List.take_length_add_append,
      List.take_append_of_le_length (Nat.le_of_lt hc), Nat.add_assoc, List.drop_length_add_append]

end Layers

/-- A text with blanks at its ends. -/
theorem exists_append_trim (cs : List Char) :
    ∃ before after, cs = before ++ trim cs ++ after ∧ (∀ c ∈ before, isBlank c = true) ∧
      ∀ c ∈ after, isBlank c = true := by
  have hright : ∀ cs : List Char,
      cs = trimRight cs ++ (cs.reverse.takeWhile isBlank).reverse := by
    intro cs
    rw [trimRight, ← List.reverse_append, List.takeWhile_append_dropWhile, List.reverse_reverse]
  refine ⟨cs.takeWhile isBlank, ((cs.dropWhile isBlank).reverse.takeWhile isBlank).reverse, ?_,
    fun c hc ↦ List.all_eq_true.mp List.all_takeWhile c hc,
    fun c hc ↦ List.all_eq_true.mp List.all_takeWhile c (List.mem_reverse.mp hc)⟩
  rw [List.append_assoc, trim, ← hright, List.takeWhile_append_dropWhile]

/-- Parentheses around a whole text are taken off, and so is what wraps the text in them. -/
theorem stripParentheses_enclosed {cs : List Char} (hblank : ∀ c ∈ cs, isBlank c = true → c = ' ')
    (hclose : closingAt? '(' ')' 0 (cs ++ [')']) = some cs.length) :
    stripParentheses ('(' :: cs ++ [')']) = stripParentheses (trim cs) := by
  obtain ⟨before, after, hcs, hbefore, hafter⟩ := exists_append_trim cs
  have hmem : ∀ c, c ∈ before ∨ c ∈ after → c ∈ cs := by
    intro c hc
    rw [hcs]
    rcases hc with hc | hc
    · exact List.mem_append_left _ (List.mem_append_left _ hc)
    · exact List.mem_append_right _ hc
  conv => lhs; rw [hcs]
  apply stripParentheses_layer
  · exact fun c hc ↦ hblank c (hmem c (.inl hc)) (hbefore c hc)
  · exact fun c hc ↦ hblank c (hmem c (.inr hc)) (hafter c hc)
  · rw [← hcs]
  · rw [← hcs]
    exact hclose

/-- A text that begins with neither a parenthesis nor a space stays as it is. -/
theorem stripParentheses_of_head {c : Char} (hopening : c ≠ '(') (hspace : c ≠ ' ')
    (cs : List Char) : stripParentheses (c :: cs) = c :: cs := by
  have hleading : outerPositions '(' (c :: cs).zipIdx = [] := by
    rw [List.zipIdx_cons, outerPositions_cons (by decide), if_neg hopening, if_neg hspace]
  rw [stripParentheses, wrappingPairs_eq, hleading]
  rfl

/-- A text whose first parenthesis is not closed by its last character stays as it is. -/
theorem stripParentheses_of_closingAt? {c : Char} (hspace : c ≠ ' ') {cs : List Char}
    (hclose : closingAt? '(' ')' 0 (cs ++ [c]) ≠ some cs.length) :
    stripParentheses ('(' :: cs ++ [c]) = '(' :: cs ++ [c] := by
  have hpairs : wrappingPairs ('(' :: cs ++ [c]) = [] := by
    have hleading : outerPositions '(' ('(' :: cs ++ [c]).zipIdx =
        0 :: outerPositions '(' ((cs ++ [c]).zipIdx 1) := by
      rw [List.cons_append, List.zipIdx_cons, outerPositions_cons (by decide), if_pos rfl]
    have htrailing : outerPositions ')' ('(' :: cs ++ [c]).zipIdx.reverse =
        if c = ')' then (cs.length + 1) :: outerPositions ')' ('(' :: cs).zipIdx.reverse
        else [] := by
      rw [List.zipIdx_append, List.reverse_append, List.zipIdx_singleton, List.reverse_singleton,
        List.singleton_append, outerPositions_cons (by decide), if_neg hspace, Nat.zero_add,
        List.length_cons]
    rw [wrappingPairs_eq, hleading, htrailing]
    split
    · rw [List.zip_cons_cons, List.takeWhile_cons, if_neg]
      have hopening : ('(' :: cs ++ [c])[0]? = some '(' := rfl
      have hlayer := areWrapping_iff hopening cs.length
      rw [Nat.zero_add, Nat.add_comm 1] at hlayer
      exact fun hwrap ↦ hclose (hlayer.mp hwrap)
    · rfl
  rw [stripParentheses, hpairs]
  rfl

/-! ### Calls -/

/-- A text is a call when a function's name is followed by an argument in parentheses and the
parenthesis that closes the argument is the last character. -/
theorem splitCall?_eq_some_iff {cs arg : List Char} {f : MathFunction} :
    splitCall? cs = some (f, arg) ↔
      ∃ name, '(' ∉ name ∧ MathFunction.ofName? name = some f ∧ cs = name ++ '(' :: (arg ++ [')']) ∧
        closingAt? '(' ')' 0 (arg ++ [')']) = some arg.length ∧ allBlank arg = false := by
  constructor
  · intro h
    have hcs := List.takeWhile_append_dropWhile (p := (· != '(')) (l := cs)
    have hnot := List.head?_dropWhile_not (· != '(') cs
    rw [splitCall?] at h
    generalize cs.dropWhile (· != '(') = rest at h hcs hnot
    cases rest with
    | nil => cases h
    | cons c rest =>
      have hc : c = '(' := by simpa using hnot
      have hname : '(' ∉ cs.takeWhile (· != '(') := by
        intro hmem
        simpa using List.all_eq_true.mp List.all_takeWhile _ hmem
      simp only [Option.bind_eq_bind, Option.bind_eq_some_iff] at h
      obtain ⟨g, hg, ⟨inside, after⟩, hclose, h⟩ := h
      dsimp only at h
      split at h
      · next hend =>
        cases h
        rw [Bool.and_eq_true, List.isEmpty_iff, Bool.not_eq_true'] at hend
        obtain ⟨rfl, hfilled⟩ := hend
        obtain ⟨hrest, hclose⟩ := splitClose_eq_some_nil_iff.mp hclose
        refine ⟨_, hname, hg, ?_, hclose, hfilled⟩
        conv => lhs; rw [← hcs, hc, hrest]
      · cases h
  · rintro ⟨name, hname, hf, rfl, hclose, hfilled⟩
    have hbefore : ∀ c ∈ name, (c != '(') = true := by
      intro c hc
      rw [bne_iff_ne]
      rintro rfl
      exact hname hc
    rw [splitCall?, List.dropWhile_append_of_pos hbefore, List.takeWhile_append_of_pos hbefore]
    simp only [List.dropWhile_cons, List.takeWhile_cons, bne_self_eq_false, Bool.false_eq_true,
      if_false, List.append_nil, Option.bind_eq_bind]
    rw [hf, splitClose_eq_some_nil_iff.mpr ⟨rfl, hclose⟩]
    simp [hfilled]

end FilterPipeline.Formula
