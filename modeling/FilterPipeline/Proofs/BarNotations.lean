import FilterPipeline.Proofs.DisplayedFormulas
import FilterPipeline.Proofs.Fractions

/-!
# Notations of absolute values

An absolute value is written between bars, between bars with words beside them, or between bars with
commands. Cleaning has a pass for each of them, and each pass leaves the rest of the text alone.
Main statement: `Barred.pass_write`, a pass over the text of a formula is told by what it makes of
an absolute value around an argument.
-/

namespace FilterPipeline.Formula

open Text

/-- A notation for absolute values. -/
inductive BarForm where
  | plain
  | words
  | commands
deriving DecidableEq

namespace BarForm

/-- What stands before the argument. -/
def opening : BarForm → String
  | plain => "|"
  | words => "left|"
  | commands => "\\left|"

/-- What stands behind the argument. -/
def closing : BarForm → String
  | plain => "|"
  | words => "|right"
  | commands => "\\right|"

end BarForm

/-- A formula with notations for absolute values. -/
inductive Barred where
  | number (x : Double)
  | field (path : String)
  | binary (op : BinaryOp) (left right : Barred)
  | call (f : MathFunction) (arg : Barred)
  /-- An absolute value in one of the notations. -/
  | bars (form : BarForm) (arg : Barred)
  | negate (arg : Barred)
deriving DecidableEq

namespace Barred

/-- The formula without its notations. -/
def formula : Barred → Formula
  | number x => .number x
  | field path => .field path
  | binary op left right => .binary op left.formula right.formula
  | call f arg => .call f arg.formula
  | bars _ arg => .call .abs arg.formula
  | negate arg => .negate arg.formula

/-- The text of a formula, which is what is displayed of it save for the absolute values. -/
def text : Barred → String
  | number x => x.write .plain
  | field path => path
  | binary op left right =>
    "(" ++ left.text ++ " " ++ op.symbol.toString ++ " " ++ right.text ++ ")"
  | call f arg => f.name ++ "(" ++ arg.text ++ ")"
  | bars form arg => form.opening ++ arg.text ++ form.closing
  | negate arg => "-(" ++ arg.text ++ ")"

/-- Whether a condition holds of every absolute value in bars. -/
def Everywhere (p : BarForm → Barred → Prop) : Barred → Prop
  | number _ | field _ => True
  | binary _ left right => left.Everywhere p ∧ right.Everywhere p
  | call _ arg | negate arg => arg.Everywhere p
  | bars form arg => p form arg ∧ arg.Everywhere p

/-- What holds of every absolute value in bars is decided for one after the other. -/
instance decidableEverywhere {p : BarForm → Barred → Prop} [∀ form arg, Decidable (p form arg)] :
    ∀ t, Decidable (Everywhere p t)
  | number _ | field _ => inferInstanceAs (Decidable True)
  | binary _ left right =>
    @instDecidableAnd _ _ (decidableEverywhere left) (decidableEverywhere right)
  | call _ arg | negate arg => decidableEverywhere arg
  | bars form arg => @instDecidableAnd _ _ (inferInstanceAs (Decidable (p form arg)))
    (decidableEverywhere arg)

end Barred

namespace BarForm

/-- Whether the closing bar is taken with the end of a name for an opening bar. -/
def takesEnd : BarForm → Barred → Bool
  | commands, _ => false
  | _, .field path => "left".toList.isSuffixOf path.toList
  | _, _ => false

/-- Whether the opening bar is taken with the start of a name for a closing bar. -/
def takesStart : BarForm → Barred → Bool
  | plain, .field path => "right".toList.isPrefixOf path.toList
  | _, _ => false

/-- Only beside the name of a field a closing bar is taken for an opening one. -/
theorem takesEnd_eq_true_iff {form : BarForm} {arg : Barred} : form.takesEnd arg = true ↔
    form ≠ commands ∧ ∃ path, arg = .field path ∧ "left".toList <:+ path.toList := by
  cases form <;> cases arg <;> simp [takesEnd]

/-- Only beside the name of a field an opening bar is taken for a closing one. -/
theorem takesStart_eq_true_iff {form : BarForm} {arg : Barred} : form.takesStart arg = true ↔
    form = plain ∧ ∃ path, arg = .field path ∧ "right".toList <+: path.toList := by
  cases form <;> cases arg <;> simp [takesStart]

end BarForm

/-- Whether no bar is taken together with a part of a name. -/
def Barred.IsTold (t : Barred) : Prop :=
  t.Everywhere fun form arg ↦ form.takesEnd arg = false ∧ form.takesStart arg = false

/-- Whether all bars are told is decided for one after the other. -/
instance (t : Barred) : Decidable t.IsTold := Barred.decidableEverywhere t

/-! ### Texts while they are cleaned -/

/-- How an absolute value is written around the text of its argument. -/
abbrev Enclosing := BarForm → Barred → List Char → List Char

/-- Every absolute value between two texts. -/
def between (opening closing : BarForm → List Char) : Enclosing :=
  fun form _ cs ↦ opening form ++ cs ++ closing form

/-- Every absolute value in its notation. -/
def typed : Enclosing := between (·.opening.toList) (·.closing.toList)

namespace BarForm

/-- What stands before the argument where the words and commands are replaced. -/
def markedOpening : BarForm → List Char
  | plain => ['|']
  | words | commands => [openingBar]

/-- What stands behind the argument where the words and commands are replaced. -/
def markedClosing : BarForm → List Char
  | plain => ['|']
  | words | commands => [closingBar]

/-- What stands before the argument where the commands are replaced. -/
def wordsOpening : BarForm → List Char
  | words => "left|".toList
  | form => form.markedOpening

/-- What stands behind the argument where the commands are replaced. -/
def wordsClosing : BarForm → List Char
  | words => "|right".toList
  | form => form.markedClosing

end BarForm

/-- Every absolute value where the commands are replaced. -/
abbrev withWords : Enclosing := between BarForm.wordsOpening BarForm.wordsClosing

/-- Every absolute value where the words before bars are replaced too. -/
abbrev withClosingWords : Enclosing := between BarForm.markedOpening BarForm.wordsClosing

/-- Every absolute value as a call. -/
def called : Enclosing := between (fun _ ↦ "abs(".toList) fun _ ↦ [')']

/-- The text of a finite number is plain and has no letters. -/
theorem of_mem_numberText {x : Double} (h : x.IsBinary64) {c : Char}
    (hc : c ∈ (x.write .plain).toList) : isPlainChar c = true ∧ c.isAlpha = false := by
  obtain ⟨n, hplain, htext, -⟩ := h.exists_plainText
  rw [htext] at hc
  refine ⟨(isOperand_plainText hplain).plain c hc, ?_⟩
  rcases hplain.isLiteral.of_mem_plainText hc with rfl | hdigit | rfl
  · decide
  · exact not_isAlpha_of_isDigit hdigit
  · decide

namespace Barred

/-- The text of a formula whose absolute values are written in some way. -/
def write (enclose : Enclosing) : Barred → List Char
  | number x => (x.write .plain).toList
  | field path => path.toList
  | binary op left right =>
    ['('] ++ left.write enclose ++ [' ', op.symbol, ' '] ++ right.write enclose ++ [')']
  | call f arg => f.name.toList ++ ['('] ++ arg.write enclose ++ [')']
  | bars form arg => enclose form arg (arg.write enclose)
  | negate arg => ['-', '('] ++ arg.write enclose ++ [')']

/-- The text of a formula in its notations. -/
theorem toList_text (t : Barred) :
    t.text.toList = t.write typed := by
  induction t with
  | number x => rfl
  | field path => rfl
  | binary op l r ihl ihr => simp [text, write, ihl, ihr, String.toList_append]
  | call f arg ih => simp [text, write, ih, String.toList_append]
  | bars form arg ih => simp [text, write, typed, between, ih, String.toList_append]
  | negate arg ih => simp [text, write, ih, String.toList_append]

/-- What is displayed of a formula is its text with calls for absolute values. -/
theorem toList_display (t : Barred) :
    t.formula.display.toList = t.write called := by
  induction t with
  | number x => rfl
  | field path => rfl
  | binary op l r ihl ihr => simp [formula, display, write, ihl, ihr, String.toList_append]
  | call f arg ih => simp [formula, display, write, ih, String.toList_append]
  | bars form arg ih =>
    simp [formula, display, write, called, between, ih, String.toList_append, MathFunction.name]
  | negate arg ih => simp [formula, display, write, ih, String.toList_append]

/-- Only the absolute values of a formula matter for how they are written. -/
theorem write_congr {p : BarForm → Barred → Prop} {first second : Enclosing} {t : Barred}
    (h : t.Everywhere p) (heq : ∀ form arg, p form arg → first form arg = second form arg) :
    t.write first = t.write second := by
  induction t with
  | number x => rfl
  | field path => rfl
  | binary op l r ihl ihr => rw [write, write, ihl h.1, ihr h.2]
  | call f arg ih => rw [write, write, ih h]
  | bars form arg ih => rw [write, write, ih h.2, heq form arg h.1]
  | negate arg ih => rw [write, write, ih h]

/-- The characters of a text are plain, save for those around arguments. -/
theorem not_mem_write {c : Char} {enclose : Enclosing} (hc : isPlainChar c = false)
    (henclose : ∀ form arg cs, c ∉ cs → c ∉ enclose form arg cs) {t : Barred}
    (h : t.formula.IsDisplayable) : c ∉ t.write enclose := by
  have htoken : ∀ cs : List Char, cs.all isPlainChar = true → c ∉ cs :=
    fun cs hcs ↦ not_mem_of_plain (List.all_eq_true.mp hcs) hc
  induction t with
  | number x =>
    have hx := h.numbers x (List.mem_singleton_self x)
    exact not_mem_of_plain (fun d hd ↦ (of_mem_numberText hx hd).1) hc
  | field path =>
    have hpath := h.fields path (List.mem_singleton_self path)
    exact not_mem_of_plain (isOperand_of_isIdentifier hpath).plain hc
  | binary op l r ihl ihr =>
    obtain ⟨hl, hr⟩ := IsDisplayable.operands h
    have hmiddle : [' ', op.symbol, ' '].all isPlainChar = true := by cases op <;> decide
    simp only [write, List.mem_append, not_or]
    exact ⟨⟨⟨⟨htoken _ rfl, ihl hl⟩, htoken _ hmiddle⟩, ihr hr⟩, htoken _ rfl⟩
  | call f arg ih =>
    have hname : f.name.toList.all isPlainChar = true := by cases f <;> decide
    simp only [write, List.mem_append, not_or]
    exact ⟨⟨⟨htoken _ hname, htoken _ rfl⟩, ih ⟨h.fields, h.numbers⟩⟩, htoken _ rfl⟩
  | bars form arg ih => exact henclose form arg _ (ih ⟨h.fields, h.numbers⟩)
  | negate arg ih =>
    simp only [write, List.mem_append, not_or]
    exact ⟨⟨htoken _ rfl, ih ⟨h.fields, h.numbers⟩⟩, htoken _ rfl⟩

/-! ### Passes -/

section Passes

variable (pass : List Char → List Char) (first second : Enclosing)

/-- A pass over the text of a formula changes nothing but how its absolute values are written when
that is so for an absolute value around an argument. Which texts may stand behind a formula is left
to the pass. -/
theorem pass_write (precedes : Barred → List Char → Prop)
    (hends : ∀ (t : Barred) (c : Char) (token rest : List Char), c = ' ' ∨ c = ')' →
      precedes t (c :: token ++ rest))
    (htoken : ∀ cs rest : List Char, (∀ c ∈ cs, isPlainChar c = true) →
      (∀ c, cs.getLast? = some c → c.isAlpha = false) → pass (cs ++ rest) = cs ++ pass rest)
    (hfield : ∀ (path : String) (rest : List Char), isIdentifier path.toList = true →
      precedes (.field path) rest → pass (path.toList ++ rest) = path.toList ++ pass rest)
    (hbars : ∀ (form : BarForm) (arg : Barred), arg.formula.IsDisplayable →
      (∀ rest, precedes arg rest → pass (arg.write first ++ rest) = arg.write second ++ pass rest) →
        ∀ rest, precedes (.bars form arg) rest →
          pass (first form arg (arg.write first) ++ rest) =
            second form arg (arg.write second) ++ pass rest)
    {t : Barred} (h : t.formula.IsDisplayable) (rest : List Char) (hrest : precedes t rest) :
    pass (t.write first ++ rest) = t.write second ++ pass rest := by
  have hliteral : ∀ cs rest : List Char,
      (cs.all isPlainChar && cs.getLast?.all fun c ↦ !c.isAlpha) = true →
        pass (cs ++ rest) = cs ++ pass rest := by
    intro cs rest hcs
    rw [Bool.and_eq_true, List.all_eq_true, Option.all_eq_true] at hcs
    exact htoken cs rest hcs.1 fun c hc ↦ Bool.not_eq_true' _ ▸ hcs.2 c hc
  have hopening : ∀ cs : List Char, pass (['('] ++ cs) = ['('] ++ pass cs :=
    fun cs ↦ hliteral _ cs rfl
  have hclosing : ∀ cs : List Char, pass ([')'] ++ cs) = [')'] ++ pass cs :=
    fun cs ↦ hliteral _ cs rfl
  induction t generalizing rest with
  | number x =>
    have hx := h.numbers x (List.mem_singleton_self x)
    exact htoken _ rest (fun c hc ↦ (of_mem_numberText hx hc).1) fun c hc ↦
      (of_mem_numberText hx (List.mem_of_getLast? hc)).2
  | field path => exact hfield path rest (h.fields path (List.mem_singleton_self path)) hrest
  | binary op l r ihl ihr =>
    obtain ⟨hl, hr⟩ := IsDisplayable.operands h
    have hmiddle : ∀ cs : List Char,
        pass ([' ', op.symbol, ' '] ++ cs) = [' ', op.symbol, ' '] ++ pass cs :=
      fun cs ↦ hliteral _ cs (by cases op <;> decide)
    simp only [write, List.append_assoc]
    rw [hopening, ihl hl _ (hends _ _ _ _ (.inl rfl)), hmiddle,
      ihr hr _ (hends _ _ _ _ (.inr rfl)), hclosing]
  | call f arg ih =>
    have harg : arg.formula.IsDisplayable := ⟨h.fields, h.numbers⟩
    have hname : ∀ cs : List Char,
        pass (f.name.toList ++ ['('] ++ cs) = f.name.toList ++ ['('] ++ pass cs :=
      fun cs ↦ hliteral _ cs (by cases f <;> decide)
    rw [write, List.append_assoc, List.append_assoc, hname, ih harg _ (hends _ _ _ _ (.inr rfl)),
      hclosing]
    simp only [write, List.append_assoc]
  | bars form arg ih =>
    have harg : arg.formula.IsDisplayable := ⟨h.fields, h.numbers⟩
    exact hbars form arg harg (fun rest hrest ↦ ih harg rest hrest) rest hrest
  | negate arg ih =>
    have harg : arg.formula.IsDisplayable := ⟨h.fields, h.numbers⟩
    have hminus : ∀ cs : List Char, pass (['-', '('] ++ cs) = ['-', '('] ++ pass cs :=
      fun cs ↦ hliteral _ cs rfl
    simp only [write, List.append_assoc]
    rw [hminus, ih harg _ (hends _ _ _ _ (.inr rfl)), hclosing]

/-- A pass that keeps all plain text. -/
theorem pass_write_of_keeps
    (hkeep : ∀ cs rest : List Char, (∀ c ∈ cs, isPlainChar c = true) →
      pass (cs ++ rest) = cs ++ pass rest)
    (hbars : ∀ (form : BarForm) (arg : Barred),
      (∀ rest, pass (arg.write first ++ rest) = arg.write second ++ pass rest) →
        ∀ rest, pass (first form arg (arg.write first) ++ rest) =
          second form arg (arg.write second) ++ pass rest)
    {t : Barred} (h : t.formula.IsDisplayable) (rest : List Char) :
    pass (t.write first ++ rest) = t.write second ++ pass rest :=
  pass_write pass first second (fun _ _ ↦ True) (fun _ _ _ _ _ ↦ trivial)
    (fun cs rest hcs _ ↦ hkeep cs rest hcs)
    (fun _ rest hpath _ ↦ hkeep _ rest (isOperand_of_isIdentifier hpath).plain)
    (fun form arg _ harg rest _ ↦ hbars form arg (fun rest ↦ harg rest trivial) rest) h _ trivial

/-- A pass changes the texts around an argument on their own. -/
theorem pass_between {opening opening' closing closing' cs cs' rest : List Char}
    (hopening : ∀ cs, pass (opening ++ cs) = opening' ++ pass cs)
    (hclosing : pass (closing ++ rest) = closing' ++ pass rest)
    (hcs : pass (cs ++ (closing ++ rest)) = cs' ++ pass (closing ++ rest)) :
    pass (opening ++ cs ++ closing ++ rest) = opening' ++ cs' ++ closing' ++ pass rest := by
  rw [List.append_assoc, List.append_assoc, hopening, hcs, hclosing, List.append_assoc,
    List.append_assoc]

end Passes

variable {t : Barred}

/-- Bars with commands are no fractions. -/
theorem expandFractions_text (h : t.formula.IsDisplayable) (limit : Nat) :
    expandFractions limit t.text.toList = t.text.toList := by
  cases limit with
  | zero => rfl
  | succ limit =>
    have hpass := pass_write_of_keeps (expandFractions (limit + 1)) typed typed
      (fun cs rest hcs ↦ expandFractions_append (not_mem_of_plain hcs (by decide)) _ rest)
      (fun form arg harg rest ↦ pass_between _ (by intro cs; cases form <;> rfl)
        (by cases form <;> rfl) (harg _)) h []
    rw [toList_text, ← List.append_nil (t.write _), hpass]
    rfl

private theorem foldl_replaceAll_append (ds : List (String × String)) {cs : List Char}
    (hds : ∀ d ∈ ds, d.1.toList.head? = some '\\') (hcs : '\\' ∉ cs) (rest : List Char) :
    ds.foldl (fun cs d ↦ replaceAll d.1 d.2 cs) (cs ++ rest) =
      cs ++ ds.foldl (fun cs d ↦ replaceAll d.1 d.2 cs) rest := by
  induction ds generalizing rest with
  | nil => rfl
  | cons d ds ih =>
    obtain ⟨hd, hds⟩ := List.forall_mem_cons.mp hds
    obtain ⟨later, hpattern⟩ := List.head?_eq_some_iff.mp hd
    rw [List.foldl_cons, replaceAll_append_of_not_mem hpattern hcs, ih hds, List.foldl_cons]

/-- Replaces the fixed texts that begin with a backslash. -/
def replaceCommands (cs : List Char) : List Char :=
  (delimiters.take 16).foldl (fun cs d ↦ replaceAll d.1 d.2 cs) cs

/-- Replaces the words before bars with their bars. -/
abbrev replaceOpenings (cs : List Char) : List Char := replaceAll "left|" openingBar.toString cs

/-- Replaces the words behind bars with their bars. -/
abbrev replaceClosings (cs : List Char) : List Char := replaceAll "|right" closingBar.toString cs

/-- After the fixed texts that begin with a backslash the words are replaced with their bars. -/
theorem replaceDelimiters_eq (cs : List Char) :
    replaceDelimiters cs = replaceClosings (replaceOpenings (replaceCommands cs)) := by
  have hdelimiters : delimiters = delimiters.take 16 ++
      [("left|", openingBar.toString), ("|right", closingBar.toString)] := rfl
  have hfold : replaceDelimiters cs = delimiters.foldl (fun cs d ↦ replaceAll d.1 d.2 cs) cs := rfl
  rw [hfold, hdelimiters, List.foldl_append, List.foldl_cons, List.foldl_cons, List.foldl_nil,
    replaceCommands]

private theorem replaceCommands_append {cs : List Char} (h : '\\' ∉ cs) (rest : List Char) :
    replaceCommands (cs ++ rest) = cs ++ replaceCommands rest :=
  foldl_replaceAll_append _ (by decide) h rest

private theorem replaceCommands_opening (rest : List Char) :
    replaceCommands ("\\left|".toList ++ rest) = [openingBar] ++ replaceCommands rest := by
  have hfirst : replaceAll "\\left|" openingBar.toString ("\\left|".toList ++ rest) =
      [openingBar] ++ replaceAll "\\left|" openingBar.toString rest := rfl
  rw [replaceCommands, replaceCommands, delimiters, List.take_succ_cons, List.foldl_cons, hfirst,
    foldl_replaceAll_append _ (by decide) (by decide), List.foldl_cons]

private theorem replaceCommands_closing (rest : List Char) :
    replaceCommands ("\\right|".toList ++ rest) = [closingBar] ++ replaceCommands rest := by
  have hfirst : replaceAll "\\left|" openingBar.toString ("\\right|".toList ++ rest) =
      "\\right|".toList ++ replaceAll "\\left|" openingBar.toString rest := rfl
  have hsecond : ∀ rest : List Char,
      replaceAll "\\right|" closingBar.toString ("\\right|".toList ++ rest) =
        [closingBar] ++ replaceAll "\\right|" closingBar.toString rest := fun _ ↦ rfl
  rw [replaceCommands, replaceCommands, delimiters, List.take_succ_cons, List.take_succ_cons,
    List.foldl_cons, List.foldl_cons, hfirst, hsecond,
    foldl_replaceAll_append _ (by decide) (by decide), List.foldl_cons, List.foldl_cons]

/-- Where the commands are replaced, words and plain bars are left. -/
theorem replaceCommands_text (h : t.formula.IsDisplayable) :
    replaceCommands t.text.toList = t.write withWords := by
  have hpass := pass_write_of_keeps replaceCommands typed withWords
    (fun cs rest hcs ↦ replaceCommands_append (not_mem_of_plain hcs (by decide)) rest)
    (fun form arg harg rest ↦ by
      cases form with
      | plain =>
        exact pass_between _ (replaceCommands_append (by decide))
          (replaceCommands_append (by decide) _) (harg _)
      | words =>
        exact pass_between _ (replaceCommands_append (by decide))
          (replaceCommands_append (by decide) _) (harg _)
      | commands =>
        exact pass_between _ replaceCommands_opening (replaceCommands_closing _) (harg _)) h []
  rw [toList_text, ← List.append_nil (t.write _), hpass]
  exact List.append_nil _

end Barred

end FilterPipeline.Formula
