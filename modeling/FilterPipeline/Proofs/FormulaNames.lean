import FilterPipeline.Proofs.Parentheses
import Mathlib.Data.List.DropRight

/-!
# Names of a text and names of its tree

The names that a formula depends on are read off its text, without regard to the tree. They are
nonetheless those of the tree's leaves: every cut that reading makes lies at a separator, and what
it leaves out (function names, numbers, signs, parentheses) holds no name. Main statement:
`dependencies_eq_eraseDups_leafNames`, for every text, well formed or not.
-/

namespace FilterPipeline.Formula

open Text

/-! ### Identifiers as longest runs -/

/-- Whether an identifier directly behind this character does not count. -/
def blocksIdentifier (c : Char) : Bool := c.isDigit || c == '.' || c == '\\'

/-- The identifiers of what follows the character `previous`, each as long as it can be. -/
def identifiersAfter (previous : Option Char) : List Char → List (List Char)
  | [] => []
  | c :: cs =>
    if isIdentifierStart c then
      let token := c :: cs.takeWhile isIdentifierChar
      let later := identifiersAfter token.getLast? (cs.dropWhile isIdentifierChar)
      if previous.any blocksIdentifier then later else token :: later
    else identifiersAfter (some c) cs
termination_by cs => cs.length
decreasing_by
  all_goals simp only [List.length_cons]
  · exact Nat.lt_succ_of_le (List.dropWhile_sublist _).length_le
  · exact Nat.lt_succ_self _

/-- The name that an identifier writes. Dots at its end are no part of it. -/
def writtenName (token : List Char) : String := String.ofList (token.rdropWhile (· == '.'))

/-- A name that can be that of a field: no function has it, in whatever case its letters are, it is
no word that notation leaves behind, and it leads neither to an array element nor below one. -/
structure IsFieldName (name : String) : Prop where
  notFunction : name.toLower ∉ ["abs", "sqrt", "sin", "cos", "tan", "log", "ln"]
  notNotation : name ∉
    ["left", "right", "frac", "dfrac", "tfrac", "cdot", "times", "div", "operatorname"]
  notElement : name ≠ "this"
  notBelowElement : ¬ "this.".toList <+: name.toList

/-- The names that a field can have, as those that are left when all others are taken out. -/
theorem isFieldName_iff {name : String} : IsFieldName name ↔
    name.toLower ∉ ["abs", "sqrt", "sin", "cos", "tan", "log", "ln"] ∧
      name ∉ ["left", "right", "frac", "dfrac", "tfrac", "cdot", "times", "div", "operatorname"] ∧
      name ≠ "this" ∧ ¬ "this.".toList <+: name.toList :=
  ⟨fun h ↦ ⟨h.notFunction, h.notNotation, h.notElement, h.notBelowElement⟩,
    fun h ↦ ⟨h.1, h.2.1, h.2.2.1, h.2.2.2⟩⟩

/-- Being a name that a field can have is decided by comparing texts. -/
instance (name : String) : Decidable (IsFieldName name) := decidable_of_iff _ isFieldName_iff.symm

/-- The names in a text: those that its identifiers write and that a field can have. -/
def namesIn (cs : List Char) : List String :=
  ((identifiersAfter none cs).map writtenName).filter (IsFieldName ·)

namespace TokenWalk

private theorem close_foldl_inside (found : List (List Char)) (token : List Char) (kept : Bool)
    (previous : Option Char) {cs : List Char}
    (h : ∀ c, cs.head? = some c → isIdentifierChar c = false) :
    (cs.foldl step ⟨found, .inside token kept⟩).close =
      (cs.foldl step ⟨close ⟨found, .inside token kept⟩, .outside previous⟩).close := by
  cases cs with
  | nil => rfl
  | cons c cs =>
    have hc := h c rfl
    have hstart : isIdentifierStart c = false := by
      cases hs : isIdentifierStart c with
      | false => rfl
      | true =>
        rw [isIdentifierChar_of_start hs] at hc
        exact hc
    rw [List.foldl_cons, List.foldl_cons]
    simp only [step, hc, hstart, Bool.false_eq_true, if_false]

private theorem close_foldl_begun (c : Char) (cs : List Char) (found : List (List Char))
    (kept : Bool) (last : Option Char) :
    (cs.foldl step ⟨found, .inside [c] kept⟩).close =
      ((cs.dropWhile isIdentifierChar).foldl step
        ⟨close ⟨found, .inside ((cs.takeWhile isIdentifierChar).reverse ++ [c]) kept⟩,
          .outside last⟩).close := by
  conv => lhs; rw [← List.takeWhile_append_dropWhile (p := isIdentifierChar) (l := cs),
    List.foldl_append]
  rw [foldl_step_inside found [c] kept fun c hc ↦ List.all_eq_true.mp List.all_takeWhile c hc]
  apply close_foldl_inside
  intro d hd
  have hnot := List.head?_dropWhile_not isIdentifierChar cs
  rw [hd] at hnot
  simpa using hnot

private theorem close_foldl_outside (found : List (List Char)) (previous : Option Char)
    (cs : List Char) :
    (cs.foldl step ⟨found, .outside previous⟩).close =
      (identifiersAfter previous cs).reverse ++ found := by
  fun_induction identifiersAfter previous cs generalizing found with
  | case1 previous => rfl
  | case2 previous c cs hstart token later hblocked ih =>
    have hkept : (!previous.any fun p ↦ p.isDigit || p == '.' || p == '\\') = false := by
      rw [Bool.not_eq_false']
      exact hblocked
    rw [List.foldl_cons]
    simp only [step, hstart, if_true, hkept]
    rw [close_foldl_begun c cs found false token.getLast?]
    exact ih found
  | case3 previous c cs hstart token later hblocked ih =>
    have hkept : (!previous.any fun p ↦ p.isDigit || p == '.' || p == '\\') = true := by
      rw [Bool.not_eq_true']
      exact Bool.eq_false_iff.mpr hblocked
    rw [List.foldl_cons]
    simp only [step, hstart, if_true, hkept]
    rw [close_foldl_begun c cs found true token.getLast?]
    have hclose : close ⟨found, .inside ((cs.takeWhile isIdentifierChar).reverse ++ [c]) true⟩ =
        token :: found := by
      simp [close, token]
    rw [hclose, ih (token :: found)]
    simp [later]
  | case4 previous c cs hstart ih =>
    rw [List.foldl_cons]
    simp only [step, Bool.eq_false_iff.mpr hstart, Bool.false_eq_true, if_false]
    exact ih found

end TokenWalk

/-- The identifiers of a text are its longest runs that do not stand behind a digit, a dot or a
backslash. -/
theorem identifiers_eq_identifiersAfter (cs : List Char) :
    identifiers cs = identifiersAfter none cs := by
  rw [identifiers, TokenWalk.close_foldl_outside, List.append_nil, List.reverse_reverse]

/-! ### Identifiers that give names -/

private theorem isIdentifier_of_mem_identifiersAfter {previous : Option Char}
    {cs token : List Char} (h : token ∈ identifiersAfter previous cs) :
    isIdentifier token = true := by
  fun_induction identifiersAfter previous cs with
  | case1 previous => cases h
  | case2 previous c cs hstart found later hblocked ih => exact ih h
  | case3 previous c cs hstart found later hblocked ih =>
    rcases List.mem_cons.mp h with rfl | h
    · simp only [found, isIdentifier, hstart, Bool.true_and]
      exact List.all_takeWhile
    · exact ih h
  | case4 previous c cs hstart ih => exact ih h

private theorem rdropWhile_dot_ne_nil {token : List Char} (h : isIdentifier token = true) :
    token.rdropWhile (· == '.') ≠ [] := by
  cases token with
  | nil => cases h
  | cons c rest =>
    rw [isIdentifier, Bool.and_eq_true] at h
    intro hnil
    rw [List.rdropWhile_eq_nil_iff] at hnil
    have hdot : c = '.' := by simpa using hnil c List.mem_cons_self
    rw [hdot] at h
    exact absurd h.1 (by decide)

private theorem trim_eq_of_isIdentifierChar {cs : List Char}
    (h : ∀ c ∈ cs, isIdentifierChar c = true) : trim cs = cs := by
  obtain ⟨before, after, hcs, hbefore, hafter⟩ := exists_append_trim cs
  have hnil : ∀ blanks : List Char, (∀ c ∈ blanks, isBlank c = true) → blanks ⊆ cs →
      blanks = [] := by
    intro blanks hblanks hsubset
    apply List.eq_nil_iff_forall_not_mem.mpr
    intro c hc
    have hnot := not_isBlank_of_isIdentifierChar (h c (hsubset hc))
    rw [hblanks c hc] at hnot
    cases hnot
  rw [hnil before hbefore (by rw [hcs]; simp), hnil after hafter (by rw [hcs]; simp),
    List.nil_append, List.append_nil] at hcs
  exact hcs.symm

private theorem isSome_ofName?_iff {cs : List Char} (h : ∀ c ∈ cs, isIdentifierChar c = true) :
    (MathFunction.ofName? cs).isSome = true ↔
      (String.ofList cs).toLower ∈ ["abs", "sqrt", "sin", "cos", "tan", "log", "ln"] := by
  have hnames : ["abs", "sqrt", "sin", "cos", "tan", "log", "ln"] =
      MathFunction.all.map MathFunction.name := rfl
  rw [MathFunction.ofName?, trim_eq_of_isIdentifierChar h, List.find?_isSome, hnames,
    List.mem_map]
  have hlower : (String.ofList cs).toLower.toList = cs.map Char.toLower :=
    String.toList_map.trans (congrArg (List.map Char.toLower) String.toList_ofList)
  refine exists_congr fun f ↦ and_congr_right fun _ ↦ ?_
  rw [beq_iff_eq, ← String.toList_inj, hlower]

private theorem isElementPath_iff {path : String} :
    isElementPath path = true ↔ path = "this" ∨ "this.".toList <+: path.toList := by
  rw [isElementPath, Bool.or_eq_true, beq_iff_eq, beginsWith, Option.isSome_iff_exists]
  refine or_congr_right (exists_congr fun rest ↦ ?_)
  rw [afterStart?_eq_some_iff, eq_comm]

private theorem dependency?_eq {token : List Char} (h : isIdentifier token = true) :
    dependency? token =
      if IsFieldName (writtenName token) then some (writtenName token) else none := by
  have hdots : dropDots token = token.rdropWhile (· == '.') := rfl
  have hchars : ∀ c ∈ token.rdropWhile (· == '.'), isIdentifierChar c = true := fun c hc ↦
    isIdentifierChar_of_isIdentifier h c ((List.rdropWhile_prefix _ token).subset hc)
  have hempty : (token.rdropWhile (· == '.')).isEmpty = false := by
    rw [Bool.eq_false_iff, ne_eq, List.isEmpty_iff]
    exact rdropWhile_dot_ne_nil h
  rw [dependency?, hdots]
  simp only [hempty, Bool.false_or, Bool.or_eq_true, isSome_ofName?_iff hchars,
    List.contains_iff_mem, isElementPath_iff]
  rw [← ite_not]
  refine if_congr ?_ rfl rfl
  rw [isFieldName_iff, not_or, not_or, not_or, and_assoc]
  rfl

/-- The names in a text are those that its identifiers give to depend on. -/
theorem namesIn_eq (cs : List Char) : namesIn cs = (identifiers cs).filterMap dependency? := by
  rw [namesIn, identifiers_eq_identifiersAfter, ← List.filterMap_eq_filter, List.filterMap_map]
  apply List.filterMap_congr
  intro token htoken
  rw [dependency?_eq (isIdentifier_of_mem_identifiersAfter htoken)]
  simp only [Function.comp_apply, Option.guard, decide_eq_true_eq]

/-- Taking first occurrences is leaving out what occurred before. -/
theorem firstOccurrences_eq_eraseDups (names : List String) :
    firstOccurrences names = names.eraseDups := by
  suffices h : ∀ seen : List String,
      (names.foldl (fun seen name ↦ if seen.contains name then seen else name :: seen)
        seen).reverse = List.eraseDupsBy.loop (· == ·) names seen from h []
  induction names with
  | nil => exact fun seen ↦ rfl
  | cons name names ih =>
    intro seen
    rw [List.foldl_cons, ih, List.eraseDupsBy.loop]
    have hany : seen.any (name == ·) = seen.contains name := by
      rw [List.contains_eq_any_beq]
    rw [hany]
    cases seen.contains name <;> rfl

/-! ### What taking a text apart leaves out -/

private theorem exists_run_of_mem_outerPositions {parenthesis : Char} (hp : parenthesis ≠ ' ')
    {cs : List (Char × Nat)} {i : Nat} (h : i ∈ outerPositions parenthesis cs) :
    ∃ run rest, cs = run ++ (parenthesis, i) :: rest ∧
      ∀ x ∈ run, x.1 = parenthesis ∨ x.1 = ' ' := by
  induction cs with
  | nil => cases h
  | cons x cs ih =>
    obtain ⟨c, j⟩ := x
    have hlater : i ∈ outerPositions parenthesis cs → c = parenthesis ∨ c = ' ' →
        ∃ run rest, (c, j) :: cs = run ++ (parenthesis, i) :: rest ∧
          ∀ x ∈ run, x.1 = parenthesis ∨ x.1 = ' ' := by
      intro hi hc
      obtain ⟨run, rest, rfl, hrun⟩ := ih hi
      exact ⟨(c, j) :: run, rest, rfl, List.forall_mem_cons.mpr ⟨hc, hrun⟩⟩
    rw [outerPositions_cons hp] at h
    split at h
    · next hc =>
      rcases List.mem_cons.mp h with rfl | hi
      · exact ⟨[], cs, by rw [hc, List.nil_append], by simp⟩
      · exact hlater hi (.inl hc)
    · split at h
      · next hc => exact hlater h (.inr hc)
      · cases h

private theorem eq_take_of_zipIdx_eq {cs : List Char} {before after : List (Char × Nat)} {c : Char}
    {i : Nat} (h : cs.zipIdx = before ++ (c, i) :: after) :
    before.map Prod.fst = cs.take i ∧ after.map Prod.fst = cs.drop (i + 1) := by
  have hcs : cs = before.map Prod.fst ++ c :: after.map Prod.fst := by
    have hfst := congrArg (List.map Prod.fst) h
    rw [List.map_append, List.map_cons, List.zipIdx_map_fst] at hfst
    exact hfst
  have hi : i = before.length := by
    have hget : cs.zipIdx[before.length]? = some (c, i) := by
      rw [h, List.getElem?_append_right (Nat.le_refl _), Nat.sub_self, List.getElem?_cons_zero]
    rw [List.getElem?_zipIdx] at hget
    obtain ⟨d, -, hd⟩ := Option.map_eq_some_iff.mp hget
    simp only [Prod.mk.injEq, Nat.zero_add] at hd
    exact hd.2.symm
  subst hi
  constructor
  · conv => rhs; rw [hcs]
    rw [List.take_left' (List.length_map _)]
  · conv => rhs; rw [hcs]
    rw [← List.drop_drop, List.drop_left' (List.length_map _), List.drop_one, List.tail_cons]

private theorem isSeparator_of_mem_wrappingPairs {cs : List Char} {opening closing : Nat}
    (h : (opening, closing) ∈ wrappingPairs cs) :
    (∀ c ∈ cs.take opening, IsSeparator c) ∧ ∀ c ∈ cs.drop (closing + 1), IsSeparator c := by
  rw [wrappingPairs_eq] at h
  obtain ⟨ho, hc⟩ := List.of_mem_zip ((List.takeWhile_prefix _).subset h)
  have hrun : ∀ {parenthesis : Char} {run : List (Char × Nat)}, IsSeparator parenthesis →
      (∀ x ∈ run, x.1 = parenthesis ∨ x.1 = ' ') → ∀ c ∈ run.map Prod.fst, IsSeparator c := by
    intro parenthesis run hp hrun c hc
    obtain ⟨x, hx, rfl⟩ := List.mem_map.mp hc
    rcases hrun x hx with hx | hx <;> rw [hx]
    · exact hp
    · decide
  constructor
  · obtain ⟨run, rest, hcs, hchars⟩ := exists_run_of_mem_outerPositions (by decide) ho
    rw [← (eq_take_of_zipIdx_eq hcs).1]
    exact hrun (by decide) hchars
  · obtain ⟨run, rest, hcs, hchars⟩ := exists_run_of_mem_outerPositions (by decide) hc
    rw [List.reverse_eq_iff, List.reverse_append, List.reverse_cons, List.append_assoc,
      List.singleton_append] at hcs
    rw [← (eq_take_of_zipIdx_eq hcs).2]
    exact hrun (by decide) fun x hx ↦ hchars x (List.mem_reverse.mp hx)

private theorem identifiers_stripParentheses (cs : List Char) :
    identifiers (stripParentheses cs) = identifiers cs := by
  rw [stripParentheses]
  split
  · rfl
  · next opening closing hlast =>
    have hmem := List.mem_of_getLast? hlast
    obtain ⟨hlt, ho, hc⟩ := of_mem_wrappingPairs hmem
    obtain ⟨hbefore, hbehind⟩ := isSeparator_of_mem_wrappingPairs hmem
    have htake : (cs.take closing)[opening]? = some '(' := by
      rw [List.getElem?_take_of_lt hlt, ho]
    have hcs : cs = cs.take opening ++ '(' :: ((cs.take closing).drop (opening + 1) ++
        ')' :: cs.drop (closing + 1)) := by
      conv => lhs; rw [eq_take_cons_drop hc, eq_take_cons_drop htake, List.take_take,
        Nat.min_eq_left (Nat.le_of_lt hlt)]
      rw [List.append_assoc, List.cons_append]
    rw [identifiers_trim]
    conv => rhs; rw [hcs]
    rw [identifiers_append_separator (by decide), identifiers_append_separator (by decide)]
    have hnone : ∀ {cs : List Char}, (∀ c ∈ cs, IsSeparator c) → identifiers cs = [] := by
      intro cs h
      have hsplit := identifiers_separators_append h []
      rw [List.append_nil] at hsplit
      exact hsplit
    rw [hnone hbefore, hnone hbehind, List.nil_append, List.append_nil]

private theorem isAlpha_of_isAlpha_toLower {c : Char} (h : c.toLower.isAlpha = true) :
    c.isAlpha = true := by
  by_cases hc : c.isUpper = true
  · exact Bool.or_eq_true_iff.mpr (.inl hc)
  · have hlower : c.toLower = c := dif_neg fun hupper ↦ hc (decide_eq_true hupper)
    rw [hlower] at h
    exact h

/-- The name of a function is made of letters, blanks around it aside. -/
theorem isAlpha_of_ofName? {cs : List Char} {f : MathFunction}
    (h : MathFunction.ofName? cs = some f) : ∀ c ∈ trim cs, c.isAlpha = true := by
  have hname : f.name.toList = (trim cs).map Char.toLower := by
    have hfind := List.find?_some h
    exact eq_of_beq hfind
  have hall : f.name.toList.all Char.isAlpha = true := by
    cases f <;> decide
  intro c hc
  apply isAlpha_of_isAlpha_toLower
  apply List.all_eq_true.mp hall
  rw [hname]
  exact List.mem_map_of_mem hc

/-- Every character of a text that names a function is a blank or a letter. -/
theorem isBlank_or_isAlpha_of_ofName? {cs : List Char} {f : MathFunction}
    (h : MathFunction.ofName? cs = some f) {c : Char} (hc : c ∈ cs) :
    isBlank c = true ∨ c.isAlpha = true := by
  obtain ⟨before, after, hcs, hbefore, hafter⟩ := exists_append_trim cs
  rw [hcs, List.mem_append, List.mem_append] at hc
  rcases hc with (hc | hc) | hc
  · exact .inl (hbefore c hc)
  · exact .inr (isAlpha_of_ofName? h c hc)
  · exact .inl (hafter c hc)

/-- A function has a name. -/
theorem trim_ne_nil_of_ofName? {cs : List Char} {f : MathFunction}
    (h : MathFunction.ofName? cs = some f) : trim cs ≠ [] := by
  intro htrim
  have hfind := List.find?_some h
  rw [htrim] at hfind
  revert hfind
  cases f <;> decide

private theorem identifiers_of_ofName? {cs : List Char} {f : MathFunction}
    (h : MathFunction.ofName? cs = some f) :
    identifiers cs = [trim cs] ∧ dependency? (trim cs) = none := by
  have halpha := isAlpha_of_ofName? h
  have hdots : dropDots (trim cs) = trim cs := by
    have hlast : (trim cs).reverse.dropWhile (· == '.') = (trim cs).reverse := by
      cases hrev : (trim cs).reverse with
      | nil => rfl
      | cons c rest =>
        have hc := halpha c (List.mem_reverse.mp (hrev ▸ List.mem_cons_self))
        have hne : (c == '.') = false := by
          rw [beq_eq_false_iff_ne]
          rintro rfl
          revert hc
          decide
        rw [List.dropWhile_cons, hne]
        rfl
    rw [dropDots, hlast, List.reverse_reverse]
  constructor
  · rw [← identifiers_trim]
    apply identifiers_of_isIdentifier
    cases htrim : trim cs with
    | nil => exact absurd htrim (trim_ne_nil_of_ofName? h)
    | cons c rest =>
      rw [htrim, List.forall_mem_cons] at halpha
      simp only [isIdentifier, isIdentifierStart, Bool.and_eq_true, halpha.1, Bool.true_or,
        List.all_eq_true, true_and]
      intro d hd
      simp only [isIdentifierChar, Char.isAlphanum, halpha.2 d hd, Bool.true_or]
  · have hagain : MathFunction.ofName? (trim cs) = some f := by
      rw [MathFunction.ofName?, trim_trim]
      exact h
    rw [dependency?, hdots]
    simp only [hagain, Option.isSome_some, Bool.or_true, Bool.true_or, if_true]

private theorem namesIn_of_splitCall? {cs arg : List Char} {f : MathFunction}
    (h : splitCall? cs = some (f, arg)) : namesIn cs = namesIn arg := by
  obtain ⟨name, -, hname, rfl, -⟩ := splitCall?_eq_some_iff.mp h
  obtain ⟨hids, hnone⟩ := identifiers_of_ofName? hname
  rw [namesIn_eq, namesIn_eq, identifiers_append_separator (by decide),
    identifiers_append_separator (by decide), hids]
  rw [List.singleton_append, List.filterMap_cons_none hnone]
  exact congrArg (List.filterMap dependency?) (List.append_nil _)

/-! ### Numbers hold no names -/

/-- Characters that begin no identifier are passed over. -/
theorem identifiersAfter_append_of_not_start {cs : List Char}
    (h : ∀ c ∈ cs, isIdentifierStart c = false) (previous : Option Char) (rest : List Char) :
    identifiersAfter previous (cs ++ rest) = identifiersAfter (cs.getLast?.or previous) rest := by
  induction cs generalizing previous with
  | nil => rfl
  | cons c cs ih =>
    rw [List.forall_mem_cons] at h
    rw [List.cons_append, identifiersAfter, if_neg (Bool.eq_false_iff.mp h.1), ih h.2,
      List.getLast?_cons]
    cases cs.getLast? <;> rfl

private theorem identifiersAfter_of_not_start {cs : List Char}
    (h : ∀ c ∈ cs, isIdentifierStart c = false) (previous : Option Char) :
    identifiersAfter previous cs = [] := by
  have happend := identifiersAfter_append_of_not_start h previous []
  rw [List.append_nil, identifiersAfter] at happend
  exact happend

private theorem identifiersAfter_exponent {previous c : Char}
    (hblocks : blocksIdentifier previous = true) {cs : List Char}
    (h : ∀ d ∈ cs, isIdentifierStart d = false) :
    identifiersAfter (some previous) (c :: cs) = [] := by
  rw [identifiersAfter]
  split
  · rw [Option.any_some, hblocks, if_pos rfl]
    apply identifiersAfter_of_not_start
    intro d hd
    exact h d ((List.dropWhile_sublist _).subset hd)
  · exact identifiersAfter_of_not_start h _

/-- No digit begins an identifier. -/
theorem not_start_of_isDigit {c : Char} (h : c.isDigit = true) :
    isIdentifierStart c = false := by
  have hrange : 48 ≤ c.toNat ∧ c.toNat ≤ 57 := by
    simpa [Char.isDigit, UInt32.le_iff_toNat_le] using h
  cases hs : isIdentifierStart c with
  | false => rfl
  | true =>
    rw [isIdentifierStart, Bool.or_eq_true, beq_iff_eq] at hs
    rcases hs with hs | rfl
    · have hcases : (65 ≤ c.toNat ∧ c.toNat ≤ 90) ∨ (97 ≤ c.toNat ∧ c.toNat ≤ 122) := by
        delta Char.isAlpha Char.isUpper Char.isLower at hs
        simpa [UInt32.le_iff_toNat_le] using hs
      omega
    · revert h
      decide

private theorem takeSign_eq (cs : List Char) :
    ∃ sign, cs = sign ++ (Numeral.takeSign cs).2 ∧ ∀ c ∈ sign, isIdentifierStart c = false := by
  cases cs with
  | nil => exact ⟨[], rfl, by simp⟩
  | cons c cs =>
    by_cases hc : (c == '+' || c == '-') = true
    · refine ⟨[c], by simp [Numeral.takeSign, hc], ?_⟩
      rw [List.forall_mem_singleton]
      rw [Bool.or_eq_true, beq_iff_eq, beq_iff_eq] at hc
      rcases hc with rfl | rfl <;> decide
    · exact ⟨[], by simp [Numeral.takeSign, hc], by simp⟩

private theorem identifiersAfter_of_readExponent? {cs : List Char}
    {e : Option (Option Char × List Char)} (h : Numeral.readExponent? cs = some e) {previous : Char}
    (hblocks : blocksIdentifier previous = true) : identifiersAfter (some previous) cs = [] := by
  cases cs with
  | nil => rw [identifiersAfter]
  | cons c cs =>
    apply identifiersAfter_exponent hblocks
    obtain ⟨sign, hsign, hstart⟩ := takeSign_eq cs
    simp only [Numeral.readExponent?] at h
    split at h
    · next hdigits =>
      simp only [Bool.and_eq_true, List.all_eq_true] at hdigits
      intro d hd
      rw [hsign] at hd
      rcases List.mem_append.mp hd with hd | hd
      · exact hstart d hd
      · exact not_start_of_isDigit (hdigits.2 d hd)
    · cases h

private theorem identifiersAfter_mantissa {mantissa : List Char} (hne : mantissa ≠ [])
    (hchars : ∀ c ∈ mantissa, c.isDigit = true ∨ c = '.') {cs : List Char}
    {e : Option (Option Char × List Char)} (h : Numeral.readExponent? cs = some e)
    (previous : Option Char) : identifiersAfter previous (mantissa ++ cs) = [] := by
  rw [identifiersAfter_append_of_not_start]
  · rw [List.getLast?_eq_some_getLast hne, Option.some_or]
    apply identifiersAfter_of_readExponent? h
    rcases hchars _ (List.getLast_mem hne) with hlast | hlast
    · rw [blocksIdentifier, hlast, Bool.true_or, Bool.true_or]
    · rw [hlast]
      decide
  · intro c hc
    rcases hchars c hc with hc | rfl
    · exact not_start_of_isDigit hc
    · decide

/-- A number holds no identifier: the letter of its exponent stands behind a digit or a point. -/
theorem identifiers_of_read? {cs : List Char} {n : Numeral} (h : Numeral.read? cs = some n)
    (hdigits : n.hasDigits = true) : identifiers cs = [] := by
  obtain ⟨sign, hsign, hstart⟩ := takeSign_eq cs
  rw [identifiers_eq_identifiersAfter]
  conv => lhs; rw [hsign]
  rw [identifiersAfter_append_of_not_start hstart]
  simp only [Numeral.read?] at h
  generalize (Numeral.takeSign cs).2 = rest at h
  have hall : ∀ (cs : List Char), ∀ c ∈ cs.takeWhile Char.isDigit, c.isDigit = true :=
    fun cs c hc ↦ List.all_eq_true.mp List.all_takeWhile c hc
  have hrest := List.takeWhile_append_dropWhile (p := Char.isDigit) (l := rest)
  split at h
  · next more hmore =>
    obtain ⟨e, he, -⟩ := Option.map_eq_some_iff.mp h
    rw [hmore, ← List.takeWhile_append_dropWhile (p := Char.isDigit) (l := more)] at hrest
    rw [← hrest, ← List.cons_append, ← List.append_assoc]
    refine identifiersAfter_mantissa (by simp) (fun c hc ↦ ?_) he _
    rcases List.mem_append.mp hc with hc | hc
    · exact .inl (hall rest c hc)
    · rcases List.mem_cons.mp hc with hc | hc
      · exact .inr hc
      · exact .inl (hall more c hc)
  · next hpoint =>
    obtain ⟨e, he, rfl⟩ := Option.map_eq_some_iff.mp h
    have hwhole : rest.takeWhile Char.isDigit ≠ [] := by
      intro hnil
      simp [Numeral.hasDigits, hnil] at hdigits
    rw [← hrest]
    exact identifiersAfter_mantissa hwhole (fun c hc ↦ .inl (hall rest c hc)) he _

private theorem namesIn_of_numberLiteral? {cs : List Char} {x : Double}
    (h : numberLiteral? cs = some x) :
    namesIn cs = [] := by
  simp only [numberLiteral?, Option.bind_eq_bind, Option.bind_eq_some_iff] at h
  obtain ⟨n, hn, h⟩ := h
  split at h
  · next hdigits =>
    rw [Bool.and_eq_true] at hdigits
    rw [namesIn_eq, identifiers_of_read? hn hdigits.2]
    rfl
  · cases h

/-! ### The names of the leaves -/

/-- The names in a text with a separator in it are those before it and those behind it. -/
theorem namesIn_append_separator {c : Char} (h : IsSeparator c) (before after : List Char) :
    namesIn (before ++ c :: after) = namesIn before ++ namesIn after := by
  rw [namesIn_eq, namesIn_eq, namesIn_eq, identifiers_append_separator h, List.filterMap_append]

private theorem namesIn_cons_separator {c : Char} (h : IsSeparator c) (cs : List Char) :
    namesIn (c :: cs) = namesIn cs := by
  have happend := namesIn_append_separator h [] cs
  rw [List.nil_append] at happend
  rw [happend, namesIn, identifiersAfter, List.map_nil, List.filter_nil, List.nil_append]

/-- The leaves of a text's tree hold the names of the text, in their order. -/
theorem namesIn_eq_flatMap_fields (levels : Nat) (cs : List Char) :
    namesIn cs = (ofPlain levels cs).fields.flatMap fun leaf ↦ namesIn leaf.toList := by
  have hwhole : ∀ cs : List Char,
      namesIn cs =
        (field (String.ofList cs)).fields.flatMap fun leaf ↦ namesIn leaf.toList := by
    intro cs
    rw [fields, List.flatMap_singleton, String.toList_ofList]
  have htrim : ∀ cs : List Char, namesIn (trim cs) = namesIn cs := by
    intro cs
    rw [namesIn_eq, namesIn_eq, identifiers_trim]
  induction levels generalizing cs with
  | zero =>
    rw [← htrim]
    exact hwhole (trim cs)
  | succ levels ih =>
    have hstrip : namesIn (stripParentheses (trim cs)) = namesIn cs := by
      rw [← htrim cs, namesIn_eq, namesIn_eq, identifiers_stripParentheses]
    rw [← hstrip]
    simp only [ofPlain]
    generalize stripParentheses (trim cs) = cs
    split
    · next f arg hcall =>
      rw [namesIn_of_splitCall? hcall, fields]
      exact ih arg
    · split
      · next s hsplit =>
        conv => lhs; rw [eq_of_mainOperator? hsplit]
        rw [namesIn_append_separator (isSeparator_symbol s.op), ih s.left, ih s.right, fields,
          List.flatMap_append]
      · split
        · next x hx => rw [namesIn_of_numberLiteral? hx, fields, List.flatMap_nil]
        · split
          · exact hwhole cs
          · split
            · split
              · exact hwhole _
              · rw [namesIn_cons_separator (by decide), fields]
                exact ih _
            · split
              · exact hwhole _
              · rw [namesIn_cons_separator (by decide)]
                exact ih _
            · exact hwhole cs

/-- The names that a text depends on are those of its tree's leaves from left to right, each at its
first place. -/
theorem dependencies_eq_eraseDups_leafNames (s : String) :
    dependencies s =
      ((parse s).fields.flatMap fun leaf ↦ namesIn leaf.toList).eraseDups := by
  rw [dependencies, firstOccurrences_eq_eraseDups, ← namesIn_eq,
    namesIn_eq_flatMap_fields (defaultLimit + 1)]
  rfl

end FilterPipeline.Formula
