import FilterPipeline.Proofs.BoundedReading
import FilterPipeline.Proofs.MarkedBars

/-!
# Bars that are told apart

Where a bar is taken with a part of a name, letters of the name are lost, and reading a text never
adds a letter. Main statement: a formula is read from its text exactly when no bar is taken with a
part of a name.
-/

namespace FilterPipeline.Formula

open Text

/-! ### Counting a letter -/

section Counting

variable {c : Char}

/-- Replacing a fixed text adds only what is written for it. -/
theorem count_replaceAll_le {pattern written : String} (hc : c ∉ written.toList) (cs : List Char) :
    (replaceAll pattern written cs).count c ≤ cs.count c := by
  have hskip : ∀ (cs : List Char) (skip : Nat),
      (replaceByAfter (literalRule pattern.toList written.toList) skip cs).count c ≤
        cs.count c := by
    intro cs
    induction cs with
    | nil => exact fun _ ↦ Nat.le_refl _
    | cons d cs ih =>
      intro skip
      have hcons : cs.count c ≤ (d :: cs).count c := (List.sublist_cons_self d cs).count_le c
      cases skip with
      | succ skip => exact Nat.le_trans (ih skip) hcons
      | zero =>
        rw [replaceByAfter]
        split
        · next r hr =>
          obtain ⟨_, -, rfl⟩ := Option.map_eq_some_iff.mp hr
          rw [List.count_append, List.count_eq_zero_of_not_mem hc, Nat.zero_add]
          exact Nat.le_trans (ih _) hcons
        · have hrest := ih 0
          rw [List.count_cons, List.count_cons]
          omega
  exact hskip cs 0

private theorem count_unifyBars_le (hc : c ∉ "abs()".toList) (cs : List Char) :
    (unifyBars cs).count c ≤ cs.count c := by
  have hbegin : "abs(".toList.reverse.count c = 0 := by
    apply List.count_eq_zero_of_not_mem
    intro hmem
    exact hc (List.mem_append_left [')'] (List.mem_reverse.mp hmem))
  have hclosing : ')' ≠ c := by
    rintro rfl
    exact hc (by decide)
  have hfold : ∀ (cs : List Char) (b : Bars),
      (cs.foldl Bars.step b).written.count c ≤ b.written.count c + cs.count c := by
    intro cs
    induction cs with
    | nil => exact fun _ ↦ Nat.le_refl _
    | cons d cs ih =>
      intro b
      have hstep : (b.step d).written.count c ≤ b.written.count c + [d].count c := by
        have hopens : b.begin.written.count c = b.written.count c := by
          rw [Bars.begin, List.count_append, hbegin, Nat.zero_add]
        have hcloses : b.finish.written.count c = b.written.count c := by
          rw [Bars.finish]
          split
          · exact List.count_cons_of_ne hclosing
          · rfl
        rw [Bars.step]
        split
        · omega
        · split
          · omega
          · split
            · split <;> omega
            · rw [← List.singleton_append, List.count_append]
              omega
      have hrest := ih (b.step d)
      rw [← List.singleton_append, List.count_append, List.singleton_append, List.foldl_cons]
      omega
  have hwritten := hfold cs ⟨[], 0⟩
  rw [unifyBars, List.count_append, List.count_reverse, List.count_replicate]
  simp only [beq_iff_eq, hclosing, if_false, List.count_nil, Nat.zero_add, Nat.add_zero]
    at hwritten ⊢
  exact hwritten

private theorem count_collapseBlanks_le (hc : c ≠ ' ') (afterBlank : Bool) (cs : List Char) :
    (collapseBlanks afterBlank cs).count c ≤ cs.count c := by
  induction cs generalizing afterBlank with
  | nil => exact Nat.le_refl _
  | cons d cs ih =>
    have hcons : cs.count c ≤ (d :: cs).count c := (List.sublist_cons_self d cs).count_le c
    rw [collapseBlanks]
    split
    · split
      · exact Nat.le_trans (ih true) hcons
      · rw [List.count_cons_of_ne (Ne.symm hc)]
        exact Nat.le_trans (ih true) hcons
    · have hrest := ih false
      rw [List.count_cons, List.count_cons]
      omega

private theorem count_map_toParenthesis_le (hc : c ∉ "()".toList) (cs : List Char) :
    (cs.map toParenthesis).count c ≤ cs.count c := by
  induction cs with
  | nil => exact Nat.le_refl _
  | cons d cs ih =>
    have hsame : toParenthesis d = c → d = c := by
      rw [toParenthesis]
      split
      · rintro rfl
        exact absurd (by decide) hc
      · split
        · rintro rfl
          exact absurd (by decide) hc
        · exact id
    rw [List.map_cons, List.count_cons, List.count_cons]
    by_cases hd : toParenthesis d = c
    · rw [beq_iff_eq.mpr hd, beq_iff_eq.mpr (hsame hd)]
      omega
    · rw [beq_eq_false_iff_ne.mpr hd]
      simp only [Bool.false_eq_true, if_false]
      omega

end Counting

namespace Barred

variable {t : Barred}

/-! ### Cleaning -/

/-- What cleaning makes of a text with bars once the words before bars are replaced. -/
theorem cleanWithin_text (h : t.formula.IsDisplayable) (limit : Nat) :
    cleanWithin limit t.text.toList = trim (collapseBlanks false ((unifyBars
      (replaceClosings (t.write afterOpenings))).map toParenthesis)) := by
  have hbrace : '\x7b' ∉ t.text.toList := by
    rw [toList_text]
    apply not_mem_write (by decide) _ h
    intro form arg cs hcs
    simp only [typed, between, List.mem_append, not_or]
    cases form <;> exact ⟨⟨by decide, hcs⟩, by decide⟩
  have hslash : '\\' ∉ replaceClosings (t.write afterOpenings) := by
    have hwrite : '\\' ∉ t.write afterOpenings := by
      apply not_mem_write (by decide) _ h
      intro form arg cs hcs
      have htake : '\\' ∉ cs.take (cs.length - 4) := fun hmem ↦ hcs (List.mem_of_mem_take hmem)
      rw [afterOpenings]
      split
      · simp only [List.mem_append, not_or]
        cases form <;> exact ⟨⟨by decide, htake⟩, by decide⟩
      · simp only [List.mem_append, not_or]
        cases form <;> exact ⟨⟨by decide, hcs⟩, by decide⟩
    have hcount : (replaceClosings (t.write afterOpenings)).count '\\' ≤
        (t.write afterOpenings).count '\\' := count_replaceAll_le (by decide) _
    rw [List.count_eq_zero_of_not_mem hwrite] at hcount
    exact List.count_eq_zero.mp (Nat.le_zero.mp hcount)
  rw [cleanWithin, expandFractions_text h, replaceBy_subscriptRule hbrace, replaceDelimiters_eq,
    replaceCommands_text h, replaceOpenings_write h, replaceBy_commandRule hslash]

/-- A condition holds everywhere together with another one when each of them does. -/
theorem everywhere_and {p q : BarForm → Barred → Prop} :
    (t.Everywhere fun form arg ↦ p form arg ∧ q form arg) ↔ t.Everywhere p ∧ t.Everywhere q := by
  induction t with
  | number x => simp [Everywhere]
  | field path => simp [Everywhere]
  | binary op l r ihl ihr => simp only [Everywhere, ihl, ihr, and_and_and_comm]
  | call f arg ih => exact ih
  | bars form arg ih => simp only [Everywhere, ih, and_and_and_comm]
  | negate arg ih => exact ih

/-- Where no closing bar is taken with a name, only the words are replaced. -/
theorem write_afterOpenings (h : t.Everywhere fun form arg ↦ form.takesEnd arg = false) :
    t.write afterOpenings = t.write withClosingWords := by
  apply write_congr h
  intro form arg hform
  funext cs
  rw [afterOpenings, hform]
  rfl

private theorem write_afterClosings (h : t.Everywhere fun form arg ↦ form.takesStart arg = false) :
    t.write afterClosings = t.write marked := by
  apply write_congr h
  intro form arg hform
  funext cs
  rw [afterClosings, hform]
  rfl

/-- Cleaning writes told bars as calls. -/
theorem cleanWithin_text_of_isTold (h : t.formula.IsDisplayable) (htold : t.IsTold) (limit : Nat) :
    cleanWithin limit t.text.toList = trim (collapseBlanks false t.formula.display.toList) := by
  obtain ⟨hends, hstarts⟩ := everywhere_and.mp htold
  have hbars : unifyBars (t.write marked) = t.formula.display.toList := by
    rw [unifyBars, foldl_step_write h ⟨[], 0⟩ (.inl rfl), toList_display]
    simp
  rw [cleanWithin_text h, write_afterOpenings hends, replaceClosings_write h,
    write_afterClosings hstarts, hbars, map_toParenthesis_eq_self h.written.isOperand.plain]

/-! ### Lost letters -/

/-- The letters of a text are those of names, when none stands in the tokens: no more of them, and
less where some absolute value loses one. -/
theorem count_write {c : Char} {enclose : Enclosing} {p : BarForm → Barred → Prop}
    (hc : c.isAlpha = true) (hname : ∀ f : MathFunction, c ∉ f.name.toList)
    (hle : ∀ form arg cs, (enclose form arg cs).count c ≤ cs.count c)
    (hlt : ∀ form arg, ¬ p form arg →
      (enclose form arg (arg.write enclose)).count c < (arg.write enclose).count c)
    (h : t.formula.IsDisplayable) :
    (t.write enclose).count c ≤ (t.formula.fields.flatMap String.toList).count c ∧
      (¬ t.Everywhere p →
        (t.write enclose).count c < (t.formula.fields.flatMap String.toList).count c) := by
  have htoken : ∀ cs : List Char, cs.all (fun d ↦ !d.isAlpha) = true → cs.count c = 0 :=
    fun cs hcs ↦ List.count_eq_zero_of_not_mem (not_mem_of_all_not hcs hc)
  induction t with
  | number x =>
    refine ⟨?_, fun hnot ↦ absurd trivial hnot⟩
    have hx := h.numbers x (List.mem_singleton_self x)
    rw [write, List.count_eq_zero_of_not_mem]
    · exact Nat.zero_le _
    · intro hmem
      have hletter := (of_mem_numberText hx hmem).2
      rw [hc] at hletter
      cases hletter
  | field path =>
    refine ⟨?_, fun hnot ↦ absurd trivial hnot⟩
    simp [write, formula, fields]
  | binary op l r ihl ihr =>
    obtain ⟨hl, hr⟩ := IsDisplayable.operands h
    obtain ⟨hleLeft, hltLeft⟩ := ihl hl
    obtain ⟨hleRight, hltRight⟩ := ihr hr
    have hmiddle : [' ', op.symbol, ' '].count c = 0 := by
      apply htoken
      cases op <;> decide
    rw [write, formula, fields, List.flatMap_append]
    simp only [List.count_append, htoken ['('] rfl, htoken [')'] rfl, hmiddle]
    refine ⟨by omega, fun hnot ↦ ?_⟩
    by_cases hleft : l.Everywhere p
    · have hright := hltRight fun hright ↦ hnot ⟨hleft, hright⟩
      omega
    · have hleft := hltLeft hleft
      omega
  | call f arg ih =>
    have hcount : (write enclose (.call f arg)).count c = (arg.write enclose).count c := by
      simp only [write, List.count_append, List.count_eq_zero_of_not_mem (hname f),
        htoken ['('] rfl, htoken [')'] rfl, Nat.zero_add, Nat.add_zero]
    rw [hcount]
    exact ih ⟨h.fields, h.numbers⟩
  | bars form arg ih =>
    obtain ⟨hleArg, hltArg⟩ := ih ⟨h.fields, h.numbers⟩
    have hform := hle form arg (arg.write enclose)
    rw [write, formula, fields]
    refine ⟨Nat.le_trans hform hleArg, fun hnot ↦ ?_⟩
    by_cases hp : p form arg
    · exact Nat.lt_of_le_of_lt hform (hltArg fun harg ↦ hnot ⟨hp, harg⟩)
    · exact Nat.lt_of_lt_of_le (hlt form arg hp) hleArg
  | negate arg ih =>
    have hcount : (write enclose (.negate arg)).count c = (arg.write enclose).count c := by
      simp only [write, List.count_append, htoken ['-', '('] rfl, htoken [')'] rfl, Nat.zero_add,
        Nat.add_zero]
    rw [hcount]
    exact ih ⟨h.fields, h.numbers⟩

/-- Where a closing bar is taken with the end of a name, the name loses the letters of the word. -/
theorem count_afterOpenings (h : t.formula.IsDisplayable)
    (hnot : ¬ t.Everywhere fun form arg ↦ form.takesEnd arg = false) :
    (t.write afterOpenings).count 'f' < (t.formula.fields.flatMap String.toList).count 'f' := by
  have hmarks : ∀ form : BarForm, form.markedOpening.count 'f' = 0 ∧
      form.wordsClosing.count 'f' = 0 ∧ (openingBar :: form.wordsClosing.tail).count 'f' = 0 := by
    intro form
    cases form <;> decide
  refine (count_write (p := fun form arg ↦ form.takesEnd arg = false)
    (by decide) ?_ ?_ ?_ h).2 hnot
  · intro f
    cases f <;> decide
  · intro form arg cs
    obtain ⟨hopening, hclosing, htail⟩ := hmarks form
    have htake := (List.take_sublist (cs.length - 4) cs).count_le 'f'
    rw [afterOpenings]
    split
    · rw [List.count_append, List.count_append, hopening, htail]
      omega
    · rw [List.count_append, List.count_append, hopening, hclosing]
      omega
  · intro form arg htakes
    obtain ⟨hopening, -, htail⟩ := hmarks form
    rw [Bool.not_eq_false] at htakes
    obtain ⟨-, path, rfl, name, hname⟩ := BarForm.takesEnd_eq_true_iff.mp htakes
    have hlength : (name ++ "left".toList).length - 4 = name.length := by
      rw [List.length_append]
      exact Nat.add_sub_cancel name.length 4
    have hword : "left".toList.count 'f' = 1 := by decide
    rw [afterOpenings, if_pos htakes, write, ← hname, hlength, List.take_left, List.count_append,
      List.count_append, List.count_append, hopening, htail, hword]
    omega

/-- Where an opening bar is taken with the start of a name, the name loses the letters of the
word. -/
theorem count_afterClosings (h : t.formula.IsDisplayable)
    (hnot : ¬ t.Everywhere fun form arg ↦ form.takesStart arg = false) :
    (t.write afterClosings).count 'h' < (t.formula.fields.flatMap String.toList).count 'h' := by
  have hmarks : ∀ form : BarForm, form.markedOpening.count 'h' = 0 ∧
      form.markedClosing.count 'h' = 0 ∧ [closingBar].count 'h' = 0 := by
    intro form
    cases form <;> decide
  refine (count_write (p := fun form arg ↦ form.takesStart arg = false)
    (by decide) ?_ ?_ ?_ h).2 hnot
  · intro f
    cases f <;> decide
  · intro form arg cs
    obtain ⟨hopening, hclosing, hbar⟩ := hmarks form
    have hdrop := (List.drop_sublist 5 cs).count_le 'h'
    rw [afterClosings]
    split
    · rw [← List.singleton_append, List.append_assoc, List.count_append, List.count_append, hbar,
        hclosing]
      omega
    · rw [List.count_append, List.count_append, hopening, hclosing]
      omega
  · intro form arg htakes
    obtain ⟨-, hclosing, hbar⟩ := hmarks form
    rw [Bool.not_eq_false] at htakes
    obtain ⟨-, path, rfl, name, hname⟩ := BarForm.takesStart_eq_true_iff.mp htakes
    have hdrop : ("right".toList ++ name).drop 5 = name := rfl
    have hword : "right".toList.count 'h' = 1 := by decide
    rw [afterClosings, if_pos htakes, write, ← hname, hdrop, ← List.singleton_append,
      List.append_assoc, List.count_append, List.count_append, List.count_append, hbar, hclosing,
      hword]
    omega

/-! ### Reading -/

/-- What is read of a text has no field whose letters are not left where the words before bars are
replaced, and all of them where the words behind bars are. -/
theorem count_fields_le {limit : Nat} (h : t.formula.IsDisplayable)
    (hread : parseWithin limit t.text = t.formula) {c : Char} (hc : c ∉ "abs() ".toList) :
    (t.formula.fields.flatMap String.toList).count c ≤
      (replaceClosings (t.write afterOpenings)).count c := by
  have hcall : c ∉ "abs()".toList := fun hmem ↦ hc (List.mem_append_left [' '] hmem)
  have hparenthesis : c ∉ "()".toList := fun hmem ↦ hcall (List.mem_append_right "abs".toList hmem)
  have hspace : c ≠ ' ' := by
    rintro rfl
    exact hc (by decide)
  have hsublist := flatMap_fields_sublist (limit + 1) (cleanWithin limit t.text.toList)
  rw [← parseWithin, hread, cleanWithin_text h] at hsublist
  calc
    _ ≤ _ := hsublist.count_le c
    _ ≤ _ := (trim_sublist _).count_le c
    _ ≤ _ := count_collapseBlanks_le hspace false _
    _ ≤ _ := count_map_toParenthesis_le hparenthesis _
    _ ≤ _ := count_unifyBars_le hcall _

/-- A formula is read from its text in any notations of absolute values, within any limit that its
depth allows, exactly when no bar is taken with a part of a name. -/
theorem parseWithin_text_iff {limit : Nat} (h : t.formula.IsDisplayable)
    (hdepth : t.formula.depth ≤ limit + 1) :
    parseWithin limit t.text = t.formula ↔ t.IsTold := by
  constructor
  · intro hread
    -- A letter that is lost does not come back: `f` stands in the word before bars only, `h` in the
    -- word behind them, and neither in what cleaning writes.
    have hends : t.Everywhere fun form arg ↦ form.takesEnd arg = false := by
      by_contra hnot
      have hlost := count_afterOpenings h hnot
      have hle := count_fields_le h hread (c := 'f') (by decide)
      have hkept : (replaceClosings (t.write afterOpenings)).count 'f' ≤
          (t.write afterOpenings).count 'f' := count_replaceAll_le (by decide) _
      omega
    have hstarts : t.Everywhere fun form arg ↦ form.takesStart arg = false := by
      by_contra hnot
      have hlost := count_afterClosings h hnot
      have hle := count_fields_le h hread (c := 'h') (by decide)
      rw [write_afterOpenings hends, replaceClosings_write h] at hle
      omega
    exact everywhere_and.mpr ⟨hends, hstarts⟩
  · intro htold
    rw [parseWithin, cleanWithin_text_of_isTold h htold, ofPlain_trim]
    exact (h.written.collapseBlanks false).ofPlain_eq hdepth

/-- A difference in bars, of a field in bars twice and of a field that is called like the word
behind bars. -/
def nested : Barred :=
  .bars .words (.binary .subtract (.bars .plain (.bars .plain (.field "x")))
    (.bars .commands (.field "right")))

/-- It is read back from its text within exactly the limit that its depth allows: commands keep bars
apart from any name. -/
theorem parseWithin_nested :
    nested.text = "left|(||x|| - \\left|right\\right|)|right" ∧ nested.formula.depth = 5 ∧
      nested.formula.IsDisplayable ∧ nested.IsTold ∧
        parseWithin 4 nested.text = nested.formula := by
  have hdisplayable : nested.formula.IsDisplayable := ⟨by decide, by decide⟩
  have htold : nested.IsTold := by decide
  exact ⟨by decide, by decide, hdisplayable, htold,
    (parseWithin_text_iff hdisplayable (by decide)).mpr htold⟩

/-- A field in bars whose name begins with the word behind bars. -/
def taken : Barred := .bars .plain (.field "rightx")

/-- The bar before it is dropped with a part of its name and the bar behind it opens an absolute
value. -/
theorem parseWithin_taken :
    taken.text = "|rightx|" ∧ taken.formula.IsDisplayable ∧ taken.formula.depth = 2 ∧
      parseWithin 10 taken.text = .field "xabs()" ∧ parseWithin 10 taken.text ≠ taken.formula := by
  have hread : parseWithin 10 taken.text = .field "xabs()" := by decide +kernel
  refine ⟨by decide, ⟨by decide, by decide⟩, by decide, hread, ?_⟩
  rw [hread]
  exact Formula.noConfusion

end Barred

end FilterPipeline.Formula
