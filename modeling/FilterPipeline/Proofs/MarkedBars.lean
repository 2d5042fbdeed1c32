import FilterPipeline.Proofs.BarNotations

/-!
# Marking bars

The words beside bars are replaced together with the bars, wherever they stand: also a bar behind a
name that ends with the one word, and a bar before a name that begins with the other, is taken with
them. Main statements: what becomes of a text when the words are replaced, and that bars which are
not taken with a name are told apart.
-/

namespace FilterPipeline.Formula

open Text

/-- Every absolute value with its bars told apart from names. -/
def marked : Enclosing := between BarForm.markedOpening BarForm.markedClosing

/-- The absolute values where the words before bars are replaced, also in names. -/
def afterOpenings : Enclosing := fun form arg cs ↦
  if form.takesEnd arg then
    form.markedOpening ++ cs.take (cs.length - 4) ++ openingBar :: form.wordsClosing.tail
  else form.markedOpening ++ cs ++ form.wordsClosing

/-- The absolute values where the words behind bars are replaced too, also in names. -/
def afterClosings : Enclosing := fun form arg cs ↦
  if form.takesStart arg then closingBar :: cs.drop 5 ++ form.markedClosing
  else form.markedOpening ++ cs ++ form.markedClosing

namespace Barred

variable {t : Barred}

/-! ### Words before bars -/

/-- What may stand behind a formula where the words before bars are replaced: no word goes on, and
no bar is taken with the end of a name. -/
def EndsWord (t : Barred) (rest : List Char) : Prop :=
  (∀ c, rest.head? = some c → isIdentifierChar c = false) ∧
    ∀ path, t = .field path → "left".toList <:+ path.toList → rest.head? ≠ some '|'

/-- A word before a bar that begins in plain text goes on behind it, or the plain text ends with the
word. -/
theorem of_left_begins {cs s rest : List Char} (hcs : ∀ c ∈ cs, isPlainChar c = true)
    (hs : s ≠ []) (hsuffix : s <:+ cs) (hbegins : "left|".toList <+: s ++ rest) :
    (∃ c, cs.getLast? = some c ∧ c.isAlpha = true) ∧
      ((∃ c ∈ "eft".toList, rest.head? = some c) ∨
        ("left".toList <:+ cs ∧ rest.head? = some '|')) := by
  have hbar : '|' ∉ s := fun hmem ↦ not_mem_of_plain hcs (by decide) (hsuffix.subset hmem)
  have hmem : s ∈ "left".toList.inits := by
    rw [List.mem_inits]
    rcases List.prefix_or_prefix_of_prefix hbegins (List.prefix_append s rest) with hle | hle
    · exact absurd (hle.subset (by decide)) hbar
    · have hconcat : "left|".toList = "left".toList ++ ['|'] := rfl
      rw [hconcat, List.prefix_concat_iff] at hle
      rcases hle with rfl | hle
      · exact absurd (List.mem_append_right _ List.mem_cons_self) hbar
      · exact hle
  have hlast : cs.getLast? = s.getLast? := by
    obtain ⟨before, rfl⟩ := hsuffix
    exact List.getLast?_append_of_ne_nil before hs
  have hinits : "left".toList.inits = [[], ['l'], ['l', 'e'], ['l', 'e', 'f'], "left".toList] := rfl
  rw [hinits] at hmem
  simp only [List.mem_cons, List.not_mem_nil, or_false] at hmem
  obtain ⟨later, hlater⟩ := hbegins
  rw [hlast]
  rcases hmem with rfl | rfl | rfl | rfl | rfl
  · exact absurd rfl hs
  · have hrest : rest = "eft|".toList ++ later := by simpa using hlater.symm
    exact ⟨⟨'l', rfl, rfl⟩, .inl ⟨'e', by decide, by rw [hrest]; rfl⟩⟩
  · have hrest : rest = "ft|".toList ++ later := by simpa using hlater.symm
    exact ⟨⟨'e', rfl, rfl⟩, .inl ⟨'f', by decide, by rw [hrest]; rfl⟩⟩
  · have hrest : rest = "t|".toList ++ later := by simpa using hlater.symm
    exact ⟨⟨'f', rfl, rfl⟩, .inl ⟨'t', by decide, by rw [hrest]; rfl⟩⟩
  · have hrest : rest = '|' :: later := by simpa using hlater.symm
    exact ⟨⟨'t', rfl, rfl⟩, .inr ⟨hsuffix, by rw [hrest]; rfl⟩⟩

private theorem replaceOpenings_takesEnd {name : List Char}
    (hname : ∀ c ∈ name, isPlainChar c = true) (rest : List Char) :
    replaceOpenings (name ++ "left".toList ++ '|' :: rest) =
      name ++ openingBar :: replaceOpenings rest := by
  have hword : replaceOpenings ("left|".toList ++ rest) = openingBar :: replaceOpenings rest := rfl
  have hkept : replaceOpenings (name ++ ("left|".toList ++ rest)) =
      name ++ replaceOpenings ("left|".toList ++ rest) := by
    apply replaceAll_append
    intro s hs hsuffix hbegins
    -- Behind a part of the word that begins in the name the word would have to begin again.
    obtain ⟨-, ⟨c, hc, hhead⟩ | ⟨-, hhead⟩⟩ := of_left_begins hname hs hsuffix hbegins
    · cases hhead
      revert hc
      decide
    · cases hhead
  have htext : name ++ "left".toList ++ '|' :: rest = name ++ ("left|".toList ++ rest) := by simp
  rw [htext, hkept, hword]

private theorem replaceOpenings_bars {form : BarForm} {arg : Barred} (h : arg.formula.IsDisplayable)
    (hread : ∀ rest, EndsWord arg rest →
      replaceOpenings (arg.write withWords ++ rest) =
        arg.write afterOpenings ++ replaceOpenings rest)
    (rest : List Char) :
    replaceOpenings (withWords form arg (arg.write withWords) ++ rest) =
      afterOpenings form arg (arg.write afterOpenings) ++ replaceOpenings rest := by
  have hopening : ∀ cs, replaceOpenings (form.wordsOpening ++ cs) =
      form.markedOpening ++ replaceOpenings cs := by
    intro cs
    cases form <;> rfl
  have hclosing : replaceOpenings (form.wordsClosing ++ rest) =
      form.wordsClosing ++ replaceOpenings rest := by
    cases form <;> rfl
  rw [afterOpenings]
  split
  · next htakes =>
    obtain ⟨hform, path, rfl, name, hname⟩ := BarForm.takesEnd_eq_true_iff.mp htakes
    have hpath := h.fields path (List.mem_singleton_self path)
    have hplain : ∀ c ∈ name, isPlainChar c = true := by
      intro c hc
      apply (isOperand_of_isIdentifier hpath).plain
      rw [← hname]
      exact List.mem_append_left _ hc
    have htail : form.wordsClosing = '|' :: form.wordsClosing.tail := by
      cases form with
      | plain => rfl
      | words => rfl
      | commands => exact absurd rfl hform
    have hrest : replaceOpenings (form.wordsClosing.tail ++ rest) =
        form.wordsClosing.tail ++ replaceOpenings rest := by
      cases form <;> rfl
    have hlength : (name ++ "left".toList).length - 4 = name.length := by
      rw [List.length_append]
      exact Nat.add_sub_cancel name.length 4
    rw [withWords, between, write, write, ← hname, List.append_assoc, List.append_assoc, hopening,
      htail, List.cons_append, replaceOpenings_takesEnd hplain, hrest, hlength, List.take_left,
      List.tail_cons, List.append_assoc, List.append_assoc, List.cons_append]
  · next htakes =>
    apply pass_between _ hopening hclosing
    apply hread
    constructor
    · intro c hc
      cases form
      all_goals
        cases hc
        decide
    · rintro path rfl hend hbar
      apply htakes
      rw [BarForm.takesEnd_eq_true_iff]
      refine ⟨?_, path, rfl, hend⟩
      rintro rfl
      cases hbar

/-- The words before bars are replaced with their bars. -/
theorem replaceOpenings_write (h : t.formula.IsDisplayable) :
    replaceOpenings (t.write withWords) = t.write afterOpenings := by
  have hletters : ∀ c ∈ "eft".toList, isIdentifierChar c = true := List.all_eq_true.mp rfl
  have hends : ∀ (t : Barred) (c : Char) (token rest : List Char), c = ' ' ∨ c = ')' →
      EndsWord t (c :: token ++ rest) := by
    intro t c token rest hc
    constructor
    · rintro _ ⟨⟩
      rcases hc with rfl | rfl <;> decide
    · rintro _ - - ⟨⟩
      rcases hc with hc | hc <;> cases hc
  have htoken : ∀ cs rest : List Char, (∀ c ∈ cs, isPlainChar c = true) →
      (∀ c, cs.getLast? = some c → c.isAlpha = false) →
        replaceOpenings (cs ++ rest) = cs ++ replaceOpenings rest := by
    intro cs rest hcs hlast
    apply replaceAll_append
    intro s hs hsuffix hbegins
    obtain ⟨⟨c, hc, halpha⟩, -⟩ := of_left_begins hcs hs hsuffix hbegins
    rw [hlast c hc] at halpha
    cases halpha
  have hfield : ∀ (path : String) (rest : List Char), isIdentifier path.toList = true →
      EndsWord (.field path) rest →
        replaceOpenings (path.toList ++ rest) = path.toList ++ replaceOpenings rest := by
    rintro path rest hpath ⟨hword, hbar⟩
    apply replaceAll_append
    intro s hs hsuffix hbegins
    -- Either the word goes on behind the name, or the name ends with it and a bar follows.
    obtain ⟨-, ⟨c, hc, hhead⟩ | ⟨hend, hhead⟩⟩ :=
      of_left_begins (isOperand_of_isIdentifier hpath).plain hs hsuffix hbegins
    · have hchar := hword c hhead
      rw [hletters c hc] at hchar
      cases hchar
    · exact hbar path rfl hend hhead
  have hpass := pass_write replaceOpenings withWords afterOpenings EndsWord hends htoken hfield
    (fun form arg harg hread rest _ ↦ replaceOpenings_bars harg hread rest) h []
    ⟨by simp, by simp⟩
  rw [List.append_nil] at hpass
  rw [hpass]
  exact List.append_nil _

/-! ### Words behind bars -/

private theorem replaceClosings_bar {rest : List Char} (h : ¬ "right".toList <+: rest) :
    replaceClosings (['|'] ++ rest) = ['|'] ++ replaceClosings rest := by
  have hword : "|right".toList = '|' :: "right".toList := rfl
  apply replaceAll_append
  intro s hs hsuffix hbegins
  rcases List.suffix_cons_iff.mp hsuffix with rfl | hnil
  · rw [List.singleton_append, hword, List.cons_prefix_cons] at hbegins
    exact h hbegins.2
  · exact hs (List.suffix_nil.mp hnil)

private theorem of_right_begins {t : Barred} (h : t.formula.IsDisplayable) {rest : List Char}
    (hbegins : "right".toList <+: t.write withClosingWords ++ '|' :: rest) :
    ∃ path, t = .field path ∧ "right".toList <+: path.toList := by
  have hhead : (t.write withClosingWords ++ '|' :: rest).head? = some 'r' := by
    obtain ⟨later, hlater⟩ := hbegins
    rw [← hlater]
    rfl
  cases t with
  | number x =>
    rw [write] at hhead
    cases htext : (x.write .plain).toList with
    | nil =>
      rw [htext] at hhead
      cases hhead
    | cons c later =>
      have hletter := (of_mem_numberText (h.numbers x (List.mem_singleton_self x))
        (htext ▸ List.mem_cons_self)).2
      rw [htext, List.cons_append, List.head?_cons, Option.some.injEq] at hhead
      rw [hhead] at hletter
      cases hletter
  | field path =>
    refine ⟨path, rfl, ?_⟩
    rcases List.prefix_or_prefix_of_prefix hbegins (List.prefix_append path.toList _) with hle | hle
    · exact hle
    · obtain ⟨later, hlater⟩ := hle
      rw [write, ← hlater, List.prefix_append_right_inj] at hbegins
      cases later with
      | nil =>
        rw [← hlater, List.append_nil]
      | cons c later =>
        have hmem : c ∈ "right".toList := by
          rw [← hlater]
          exact List.mem_append_right _ List.mem_cons_self
        rw [(List.cons_prefix_cons.mp hbegins).1] at hmem
        exact absurd hmem (by decide)
  | binary op l r => cases hhead
  | call f arg => cases f <;> cases hhead
  | bars form arg => cases form <;> cases hhead
  | negate arg => cases hhead

private theorem replaceClosings_bars {form : BarForm} {arg : Barred} (h : arg.formula.IsDisplayable)
    (hread : ∀ rest, (∀ c, rest.head? = some c → isIdentifierChar c = false) →
      replaceClosings (arg.write withClosingWords ++ rest) =
        arg.write afterClosings ++ replaceClosings rest)
    {rest : List Char} (hrest : ∀ c, rest.head? = some c → isIdentifierChar c = false) :
    replaceClosings (withClosingWords form arg (arg.write withClosingWords) ++ rest) =
      afterClosings form arg (arg.write afterClosings) ++ replaceClosings rest := by
  have hclosing : replaceClosings (form.wordsClosing ++ rest) =
      form.markedClosing ++ replaceClosings rest := by
    cases form with
    | plain =>
      apply replaceClosings_bar
      rintro ⟨later, rfl⟩
      cases hrest 'r' rfl
    | words => rfl
    | commands => rfl
  have hend : ∀ c, (form.wordsClosing ++ rest).head? = some c → isIdentifierChar c = false := by
    intro c hc
    cases form
    all_goals
      cases hc
      decide
  rw [afterClosings]
  split
  · next htakes =>
    obtain ⟨rfl, path, rfl, name, hname⟩ := BarForm.takesStart_eq_true_iff.mp htakes
    have hpath := h.fields path (List.mem_singleton_self path)
    have hbar : '|' ∉ name := by
      intro hmem
      apply not_mem_of_plain (isOperand_of_isIdentifier hpath).plain (c := '|') (by decide)
      rw [← hname]
      exact List.mem_append_right _ hmem
    have hword : ∀ rest, replaceClosings ("|right".toList ++ rest) =
        closingBar :: replaceClosings rest := fun _ ↦ rfl
    have htext : BarForm.plain.markedOpening ++ ("right".toList ++ name) =
        "|right".toList ++ name := rfl
    have hkept : ∀ rest, replaceClosings (name ++ rest) = name ++ replaceClosings rest :=
      replaceAll_append_of_not_mem rfl hbar
    rw [withClosingWords, between, write, write, ← hname, htext, List.append_assoc,
      List.append_assoc, hword, hkept, hclosing]
    simp
  · next htakes =>
    cases form with
    | plain =>
      have hstart : ¬ "right".toList <+: arg.write withClosingWords ++ '|' :: rest := by
        intro hbegins
        apply htakes
        rw [BarForm.takesStart_eq_true_iff]
        exact ⟨rfl, of_right_begins h hbegins⟩
      have hargument : replaceClosings (arg.write withClosingWords ++ '|' :: rest) =
          arg.write afterClosings ++ replaceClosings ('|' :: rest) := hread _ hend
      have hbar : replaceClosings ('|' :: rest) = '|' :: replaceClosings rest := hclosing
      have htext : ∀ cs : List Char, BarForm.plain.markedOpening ++ cs ++
          BarForm.plain.wordsClosing ++ rest = ['|'] ++ (cs ++ '|' :: rest) := by
        intro cs
        simp [BarForm.wordsClosing, BarForm.markedOpening, BarForm.markedClosing]
      rw [withClosingWords, between, htext, replaceClosings_bar hstart, hargument, hbar]
      simp [BarForm.markedOpening, BarForm.markedClosing]
    | words => exact pass_between _ (fun _ ↦ rfl) hclosing (hread _ hend)
    | commands => exact pass_between _ (fun _ ↦ rfl) hclosing (hread _ hend)

/-- The words behind bars are replaced with their bars. -/
theorem replaceClosings_write (h : t.formula.IsDisplayable) :
    replaceClosings (t.write withClosingWords) = t.write afterClosings := by
  have hpass := pass_write replaceClosings withClosingWords afterClosings
    (fun _ rest ↦ ∀ c, rest.head? = some c → isIdentifierChar c = false)
    (fun t c token rest hc ↦ by
      rintro _ ⟨⟩
      rcases hc with rfl | rfl <;> decide)
    (fun cs rest hcs _ ↦
      replaceAll_append_of_not_mem rfl (not_mem_of_plain hcs (by decide)) rest)
    (fun path rest hpath _ ↦ replaceAll_append_of_not_mem rfl
      (not_mem_of_plain (isOperand_of_isIdentifier hpath).plain (by decide)) rest)
    (fun form arg harg hread rest hrest ↦ replaceClosings_bars harg hread hrest) h [] (by simp)
  rw [List.append_nil] at hpass
  rw [hpass]
  exact List.append_nil _

/-! ### Telling the bars apart -/

private theorem startsOperand_of_isIdentifierChar {c : Char} (h : isIdentifierChar c = true)
    (written : List Char) (pending : Nat) : Bars.startsOperand ⟨c :: written, pending⟩ = false := by
  rw [Bars.startsOperand, List.dropWhile_cons, not_isBlank_of_isIdentifierChar h,
    if_neg Bool.false_ne_true, List.head?_cons]
  dsimp only
  rw [← Bool.not_eq_true, List.contains_iff_mem]
  exact not_mem_of_all_not (by decide) h

private theorem startsOperand_write (h : t.formula.IsDisplayable) (written : List Char)
    (pending : Nat) :
    Bars.startsOperand ⟨(t.write called).reverse ++ written, pending⟩ = false := by
  have hclosing : ∀ cs : List Char,
      Bars.startsOperand ⟨(cs ++ [')']).reverse ++ written, pending⟩ = false := by
    intro cs
    rw [List.reverse_append]
    rfl
  have hlast : ∀ (cs : List Char) {c : Char}, isIdentifierChar c = true →
      Bars.startsOperand ⟨(cs ++ [c]).reverse ++ written, pending⟩ = false := by
    intro cs c hc
    rw [List.reverse_append]
    exact startsOperand_of_isIdentifierChar hc _ _
  cases t with
  | number x =>
    obtain ⟨n, hplain, htext, -⟩ := (h.numbers x (List.mem_singleton_self x)).exists_plainText
    obtain ⟨before, d, hd, hchar⟩ := exists_last_literalText hplain.isLiteral 'e'
    rw [write, htext, ← hplain.literalText_eq 'e', hd]
    apply hlast
    rcases hchar with hdigit | rfl
    · exact isIdentifierChar_of_isDigit hdigit
    · decide
  | field path =>
    have hpath := h.fields path (List.mem_singleton_self path)
    have hne := (isOperand_of_isIdentifier hpath).ne_nil
    rw [write, ← List.dropLast_concat_getLast hne]
    exact hlast _ (isIdentifierChar_of_isIdentifier hpath _ (List.getLast_mem hne))
  | binary op l r => exact hclosing _
  | call f arg => exact hclosing _
  | bars form arg => exact hclosing _
  | negate arg => exact hclosing _

/-- Where an operand may begin, the bars of a formula become calls: an opening bar stands where an
operand begins and a closing one behind an operand. -/
theorem foldl_step_write (h : t.formula.IsDisplayable) (b : Bars)
    (hb : b.pending = 0 ∨ b.startsOperand = true) :
    (t.write marked).foldl Bars.step b = ⟨(t.write called).reverse ++ b.written, b.pending⟩ := by
  have hopening : ∀ b : Bars, ['('].foldl Bars.step b = ⟨'(' :: b.written, b.pending⟩ :=
    foldl_step_of_plain (List.all_eq_true.mp rfl)
  have hclosing : ∀ b : Bars, [')'].foldl Bars.step b = ⟨')' :: b.written, b.pending⟩ :=
    foldl_step_of_plain (List.all_eq_true.mp rfl)
  induction t generalizing b with
  | number x =>
    apply foldl_step_of_plain
    exact fun c hc ↦ (of_mem_numberText (h.numbers x (List.mem_singleton_self x)) hc).1
  | field path =>
    apply foldl_step_of_plain
    exact (isOperand_of_isIdentifier (h.fields path (List.mem_singleton_self path))).plain
  | binary op l r ihl ihr =>
    obtain ⟨hl, hr⟩ := IsDisplayable.operands h
    have hmiddle : ∀ b : Bars, [' ', op.symbol, ' '].foldl Bars.step b =
        ⟨' ' :: op.symbol :: ' ' :: b.written, b.pending⟩ := by
      exact foldl_step_of_plain (List.all_eq_true.mp (by cases op <;> decide))
    have hready : ∀ (written : List Char) (pending : Nat),
        Bars.startsOperand ⟨' ' :: op.symbol :: written, pending⟩ = true := by
      intro written pending
      cases op <;> rfl
    simp only [write, List.foldl_append]
    rw [hopening, ihl hl _ (.inr rfl), hmiddle, ihr hr _ (.inr (hready _ _)), hclosing]
    simp
  | call f arg ih =>
    have harg : arg.formula.IsDisplayable := ⟨h.fields, h.numbers⟩
    have hname : ∀ b : Bars,
        f.name.toList.foldl Bars.step b = ⟨f.name.toList.reverse ++ b.written, b.pending⟩ :=
      foldl_step_of_plain (isOperand_of_isIdentifier (isIdentifier_name f)).plain
    simp only [write, List.foldl_append]
    rw [hname, hopening, ih harg _ (.inr rfl), hclosing]
    simp
  | bars form arg ih =>
    have harg : arg.formula.IsDisplayable := ⟨h.fields, h.numbers⟩
    have hbegin : form.markedOpening.foldl Bars.step b = b.begin := by
      cases form with
      | plain =>
        have hopens : (b.pending = 0 || b.startsOperand) = true := by
          rcases hb with hb | hb <;> simp [hb]
        exact if_pos hopens
      | words => rfl
      | commands => rfl
    have hfinish : form.markedClosing.foldl Bars.step
        ⟨(arg.write called).reverse ++ b.begin.written, b.begin.pending⟩ =
          ⟨')' :: ((arg.write called).reverse ++ b.begin.written), b.pending⟩ := by
      cases form with
      | plain =>
        have hcloses : (b.begin.pending = 0 || Bars.startsOperand
            ⟨(arg.write called).reverse ++ b.begin.written, b.begin.pending⟩) = false := by
          rw [startsOperand_write harg]
          simp [Bars.begin]
        exact if_neg (Bool.eq_false_iff.mp hcloses)
      | words => rfl
      | commands => rfl
    rw [write, marked, between, List.foldl_append, List.foldl_append, hbegin, ← marked,
      ih harg _ (.inr rfl), hfinish]
    simp [write, called, between, Bars.begin]
  | negate arg ih =>
    have harg : arg.formula.IsDisplayable := ⟨h.fields, h.numbers⟩
    have hminus : ∀ b : Bars, ['-', '('].foldl Bars.step b = ⟨'(' :: '-' :: b.written, b.pending⟩ :=
      foldl_step_of_plain (List.all_eq_true.mp rfl)
    simp only [write, List.foldl_append]
    rw [hminus, ih harg _ (.inr rfl), hclosing]
    simp

end Barred

end FilterPipeline.Formula
