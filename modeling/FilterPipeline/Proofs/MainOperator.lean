import FilterPipeline.Proofs.FormulaTokens

/-!
# The main operator of a text

The search for the operator that a text is taken apart at is one walk from the right that carries a
count of parentheses and the best place so far. What it finds is described here without the walk:
the places that come into question, and which of two is better. Main statement: the place found is
the one that is better than all others, and none is found exactly when there is no place.
-/

namespace FilterPipeline.Formula

open Text

/-- An operator in a text that is not a sign and has as many parentheses opened as closed behind
it. -/
structure IsOperatorAt (cs : List Char) (s : Split) : Prop where
  text : s.left ++ s.op.symbol :: s.right = cs
  level : s.right.count '(' = s.right.count ')'
  binary : (s.op.isSign && isSignAfter s.left.reverse) = false

/-- A place where a text may be taken apart: such an operator with something on both sides. -/
structure IsPlace (cs : List Char) (s : Split) : Prop extends IsOperatorAt cs s where
  left : allBlank s.left = false
  right : allBlank s.right = false

namespace Split

/-- Whether one place is better than another: its operator binds less tightly or, where both bind
alike, it is the one that a chain of them is grouped at. -/
def Beats (s t : Split) : Prop :=
  s.op.precedence < t.op.precedence ∨
    s.op.precedence = t.op.precedence ∧
      if t.op.isRightAssociative then s.left.length < t.left.length
      else t.left.length < s.left.length

/-- The place with the part on its left the right way round. -/
def unreversed (s : Split) : Split := { s with left := s.left.reverse }

/-- Turning the left part round keeps the operator. -/
@[simp] theorem op_unreversed (s : Split) : s.unreversed.op = s.op := rfl

/-- Turning the left part round keeps its length. -/
@[simp] theorem length_left_unreversed (s : Split) : s.unreversed.left.length = s.left.length :=
  List.length_reverse

/-- Only the operator that binds most tightly is grouped from the right. -/
theorem isRightAssociative_iff (op : BinaryOp) :
    op.isRightAssociative = true ↔ op.precedence = 3 := by
  cases op <;> decide

variable {s t r : Split}

private theorem Beats.asymm (h : s.Beats t) : ¬ t.Beats s := by
  simp only [Beats, isRightAssociative_iff] at h ⊢
  split at h <;> split <;> omega

private theorem Beats.trans (h : s.Beats t) (h' : t.Beats r) : s.Beats r := by
  simp only [Beats, isRightAssociative_iff] at h h' ⊢
  split at h <;> split at h' <;> split <;> omega

private theorem beats_unreversed : s.unreversed.Beats t.unreversed ↔ s.Beats t := by
  simp only [Beats, op_unreversed, length_left_unreversed]

private theorem preferred_cases {current next : Split}
    (h : next.left.length < current.left.length) :
    (next.Beats current ∧ preferred (some current) next = some next) ∨
      (current.Beats next ∧ preferred (some current) next = some current) := by
  simp only [preferred, Beats, isRightAssociative_iff]
  by_cases hlt : next.op.precedence < current.op.precedence
  · left
    rw [if_pos hlt]
    exact ⟨.inl hlt, rfl⟩
  · rw [if_neg hlt]
    by_cases hchain : next.op.precedence = current.op.precedence ∧ next.op.precedence = 3
    · left
      rw [if_pos hchain, if_pos (by omega)]
      exact ⟨.inr ⟨hchain.1, h⟩, rfl⟩
    · right
      rw [if_neg hchain]
      refine ⟨?_, rfl⟩
      split <;> omega

end Split

/-- Different operators are written with different characters. -/
theorem eq_of_symbol_eq {op op' : BinaryOp} (h : op.symbol = op'.symbol) : op = op' := by
  apply Option.some.inj
  rw [← BinaryOp.ofChar?_symbol, ← BinaryOp.ofChar?_symbol, h]

/-- Two places of a text with the same left part are the same. -/
theorem IsPlace.eq_of_length_eq {cs : List Char} {s t : Split} (hs : IsPlace cs s)
    (ht : IsPlace cs t) (h : s.left.length = t.left.length) : s = t := by
  obtain ⟨left, op, right⟩ := s
  obtain ⟨left', op', right'⟩ := t
  have htext := hs.text.trans ht.text.symm
  obtain ⟨rfl, hrest⟩ := List.append_inj htext h
  rw [List.cons.injEq] at hrest
  obtain ⟨hop, rfl⟩ := hrest
  have hop : op = op' := eq_of_symbol_eq hop
  rw [hop]

private theorem isPlace_of_splitAt? {before after : List Char} {c : Char} {s : Split}
    (h : splitAt? before c after = some s) (hlevel : after.count '(' = after.count ')') :
    IsPlace (before.reverse ++ c :: after) s.unreversed := by
  obtain ⟨hleft, hop, hright⟩ := eq_of_splitAt? h
  unfold splitAt? at h
  split at h
  · cases h
  · next op hop' =>
    split at h
    · cases h
    · next hsign =>
      split at h
      · cases h
      · next hblank =>
        cases h
        simp only [Bool.or_eq_true, not_or, Bool.not_eq_true] at hblank hsign
        refine ⟨⟨by rw [Split.unreversed, hop], hlevel, ?_⟩, ?_, hblank.2⟩
        · rw [Split.unreversed, List.reverse_reverse]
          exact hsign
        · rw [Split.unreversed, allBlank, List.all_reverse]
          exact hblank.1

private theorem IsPlace.splitAt?_eq {cs : List Char} {s : Split} (h : IsPlace cs s) :
    splitAt? s.left.reverse s.op.symbol s.right = some s.unreversed := by
  have hleft : allBlank s.left.reverse = false := by
    rw [allBlank, List.all_reverse]
    exact h.left
  rw [splitAt?, BinaryOp.ofChar?_symbol]
  simp only [h.binary, hleft, h.right, Bool.or_self, Bool.false_eq_true, if_false, Split.unreversed]

/-- The best of the places of `cs` whose left parts have at least `n` characters. -/
structure IsBest (cs : List Char) (n : Nat) (best : Option Split) : Prop where
  place : ∀ s, best = some s → IsPlace cs s.unreversed ∧ n ≤ s.left.length
  beats : ∀ t, IsPlace cs t → n ≤ t.left.length →
    ∃ s, best = some s ∧ (s.unreversed = t ∨ s.unreversed.Beats t)

private theorem IsBest.pass {cs : List Char} {n : Nat} {best : Option Split}
    (h : IsBest cs (n + 1) best) (hnone : ∀ t, IsPlace cs t → t.left.length ≠ n) :
    IsBest cs n best where
  place s hs := ⟨(h.place s hs).1, Nat.le_of_succ_le (h.place s hs).2⟩
  beats t ht hn := h.beats t ht (Nat.lt_of_le_of_ne hn (Ne.symm (hnone t ht)))

private theorem IsBest.preferred {cs : List Char} {n : Nat} {best : Option Split}
    (h : IsBest cs (n + 1) best) {next : Split} (hnext : IsPlace cs next.unreversed)
    (hn : next.left.length = n) : IsBest cs n (preferred best next) := by
  have hnew : ∀ t, IsPlace cs t → n ≤ t.left.length → t.left.length < n + 1 →
      next.unreversed = t := by
    intro t ht hle hlt
    refine hnext.eq_of_length_eq ht ?_
    rw [Split.length_left_unreversed]
    omega
  cases best with
  | none =>
    refine ⟨fun s hs ↦ ?_, fun t ht hle ↦ ⟨next, rfl, .inl ?_⟩⟩
    · cases hs
      exact ⟨hnext, Nat.le_of_eq hn.symm⟩
    · by_cases hlt : t.left.length < n + 1
      · exact hnew t ht hle hlt
      · obtain ⟨s, hs, -⟩ := h.beats t ht (Nat.le_of_not_lt hlt)
        cases hs
  | some current =>
    obtain ⟨hcurrent, hlen⟩ := h.place current rfl
    have hother : ∀ t, IsPlace cs t → n + 1 ≤ t.left.length →
        current.unreversed = t ∨ current.unreversed.Beats t := by
      intro t ht hle
      obtain ⟨s, hs, hbeats⟩ := h.beats t ht hle
      cases hs
      exact hbeats
    have hlt : next.left.length < current.left.length := by omega
    rcases Split.preferred_cases hlt with ⟨hbeats, htaken⟩ | ⟨hbeats, hkept⟩
    · rw [htaken]
      refine ⟨fun s hs ↦ ?_, fun t ht hle ↦ ⟨next, rfl, ?_⟩⟩
      · cases hs
        exact ⟨hnext, Nat.le_of_eq hn.symm⟩
      · by_cases hfirst : t.left.length < n + 1
        · exact .inl (hnew t ht hle hfirst)
        · right
          have hbeats := Split.beats_unreversed.mpr hbeats
          rcases hother t ht (Nat.le_of_not_lt hfirst) with rfl | hcurrent
          · exact hbeats
          · exact hbeats.trans hcurrent
    · rw [hkept]
      refine ⟨fun s hs ↦ ?_, fun t ht hle ↦ ⟨current, rfl, ?_⟩⟩
      · cases hs
        exact ⟨hcurrent, Nat.le_of_succ_le hlen⟩
      · by_cases hfirst : t.left.length < n + 1
        · right
          rw [← hnew t ht hle hfirst]
          exact Split.beats_unreversed.mpr hbeats
        · exact hother t ht (Nat.le_of_not_lt hfirst)

private theorem isBest_findSplit {cs before after : List Char} {depth : Int} {best : Option Split}
    (hcs : before.reverse ++ after = cs)
    (hdepth : depth = (after.count ')' : Int) - (after.count '(' : Int))
    (hbest : IsBest cs before.length best) : IsBest cs 0 (findSplit before after depth best) := by
  induction before generalizing after depth best with
  | nil => exact hbest
  | cons c before ih =>
    have hnext : before.reverse ++ c :: after = cs := by
      rw [← hcs, List.reverse_cons, List.append_assoc, List.singleton_append]
    -- A place whose left part ends here has this character as its operator.
    have hplace : ∀ t, IsPlace cs t → t.left.length = before.length →
        t.left = before.reverse ∧ t.op.symbol = c ∧ t.right = after := by
      intro t ht hlen
      have htext := ht.text.trans hnext.symm
      have hlength : t.left.length = before.reverse.length := by rw [hlen, List.length_reverse]
      have hinj := List.append_inj htext hlength
      rw [List.cons.injEq] at hinj
      exact hinj
    simp only [findSplit]
    split
    · next hc =>
      subst hc
      refine ih hnext ?_ (hbest.pass fun t ht hlen ↦ ?_)
      · rw [hdepth, List.count_cons_self, List.count_cons_of_ne (by decide)]
        omega
      · have hop := (hplace t ht hlen).2.1
        revert hop
        cases t.op <;> decide
    · split
      · next hc =>
        subst hc
        refine ih hnext ?_ (hbest.pass fun t ht hlen ↦ ?_)
        · rw [hdepth, List.count_cons_self, List.count_cons_of_ne (by decide)]
          omega
        · have hop := (hplace t ht hlen).2.1
          revert hop
          cases t.op <;> decide
      · next hclosing hopening =>
        have hcount : depth = ((c :: after).count ')' : Int) - ((c :: after).count '(' : Int) := by
          rw [List.count_cons_of_ne hclosing, List.count_cons_of_ne hopening]
          exact hdepth
        refine ih hnext hcount ?_
        split
        · next hzero =>
          split
          · next next hsplit =>
            have hnew := isPlace_of_splitAt? hsplit (by omega)
            rw [hnext] at hnew
            refine hbest.preferred hnew ?_
            rw [(eq_of_splitAt? hsplit).1]
          · next hnone =>
            refine hbest.pass fun t ht hlen ↦ ?_
            obtain ⟨hl, hop, hr⟩ := hplace t ht hlen
            have hsplit := ht.splitAt?_eq
            rw [hl, List.reverse_reverse, hop, hr, hnone] at hsplit
            cases hsplit
        · next hzero =>
          refine hbest.pass fun t ht hlen ↦ ?_
          have hlevel := ht.level
          rw [(hplace t ht hlen).2.2] at hlevel
          omega

private theorem isBest_of_text (cs : List Char) :
    IsBest cs 0 (findSplit cs.reverse [] 0 none) := by
  refine isBest_findSplit (by simp) (by simp) ⟨by simp, fun t ht hle ↦ ?_⟩
  have hlen := congrArg List.length ht.text
  rw [List.length_append, List.length_cons] at hlen
  rw [List.length_reverse] at hle
  omega

/-- A text has no main operator exactly when there is no place to take it apart. -/
theorem mainOperator?_eq_none_iff {cs : List Char} :
    mainOperator? cs = none ↔ ∀ t, ¬ IsPlace cs t := by
  have hbest := isBest_of_text cs
  rw [mainOperator?, Option.map_eq_none_iff]
  constructor
  · intro hnone t ht
    obtain ⟨s, hs, -⟩ := hbest.beats t ht (Nat.zero_le _)
    rw [hnone] at hs
    cases hs
  · intro hnot
    cases hs : findSplit cs.reverse [] 0 none with
    | none => rfl
    | some s => exact absurd (hbest.place s hs).1 (hnot s.unreversed)

/-- The main operator of a text is at the place that is better than all others. -/
theorem mainOperator?_eq_some_iff {cs : List Char} {s : Split} :
    mainOperator? cs = some s ↔ IsPlace cs s ∧ ∀ t, IsPlace cs t → s = t ∨ s.Beats t := by
  have hbest := isBest_of_text cs
  constructor
  · intro h
    rw [mainOperator?, Option.map_eq_some_iff] at h
    obtain ⟨r, hr, rfl⟩ := h
    refine ⟨(hbest.place r hr).1, fun t ht ↦ ?_⟩
    obtain ⟨r', hr', hbeats⟩ := hbest.beats t ht (Nat.zero_le _)
    rw [hr, Option.some.injEq] at hr'
    subst hr'
    exact hbeats
  · rintro ⟨hs, hall⟩
    obtain ⟨r, hr, hbeats⟩ := hbest.beats s hs (Nat.zero_le _)
    have hrs : r.unreversed = s := by
      rcases hbeats with he | hbeats
      · exact he
      · rcases hall r.unreversed (hbest.place r hr).1 with he | hbeats'
        · exact he.symm
        · exact absurd hbeats' hbeats.asymm
    rw [mainOperator?, hr, Option.map_some, ← hrs]
    rfl

end FilterPipeline.Formula
