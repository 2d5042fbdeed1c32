/-!
# Splitting a text at a character
-/

namespace FilterPipeline.Text

/-- The parts of a text between the occurrences of a character; there is always at least one. -/
def splitAtChar (separator : Char) : List Char → List (List Char)
  | [] => [[]]
  | c :: cs =>
    if c = separator then [] :: splitAtChar separator cs
    else
      match splitAtChar separator cs with
      | part :: parts => (c :: part) :: parts
      | [] => [[c]]

/-- The parts of a string between the occurrences of a character. -/
def splitString (separator : Char) (s : String) : List String :=
  (splitAtChar separator s.toList).map String.ofList

/-- There is always a part. -/
theorem splitAtChar_ne_nil (separator : Char) (cs : List Char) :
    splitAtChar separator cs ≠ [] := by
  cases cs with
  | nil => simp [splitAtChar]
  | cons c cs =>
    simp only [splitAtChar]
    repeat' split
    all_goals simp

/-- What is split off in front of a separator comes first. -/
theorem splitAtChar_append (separator : Char) (cs rest : List Char) :
    splitAtChar separator (cs ++ separator :: rest) =
      splitAtChar separator cs ++ splitAtChar separator rest := by
  induction cs with
  | nil => simp [splitAtChar]
  | cons c cs ih =>
    simp only [List.cons_append, splitAtChar, ih]
    split
    · rw [List.cons_append]
    · cases hparts : splitAtChar separator cs with
      | nil => exact absurd hparts (splitAtChar_ne_nil separator cs)
      | cons part parts => rfl

/-- A text without the separator is the only part. -/
theorem splitAtChar_of_not_mem {separator : Char} {cs : List Char} (h : separator ∉ cs) :
    splitAtChar separator cs = [cs] := by
  induction cs with
  | nil => rfl
  | cons c cs ih =>
    rw [List.mem_cons, not_or] at h
    rw [splitAtChar, if_neg (Ne.symm h.1), ih h.2]

/-- Where the parts of a text are taken apart, there is a separator. -/
theorem exists_of_splitAtChar_eq_append {separator : Char} {cs : List Char}
    {before rest : List (List Char)} (h : splitAtChar separator cs = before ++ rest)
    (hbefore : before ≠ []) (hrest : rest ≠ []) :
    ∃ as bs, cs = as ++ separator :: bs ∧ splitAtChar separator as = before ∧
      splitAtChar separator bs = rest := by
  induction cs generalizing before with
  | nil =>
    cases before with
    | nil => exact absurd rfl hbefore
    | cons part parts =>
      have hnil : [] = parts ++ rest := (List.cons.inj h).2
      exact absurd (List.append_eq_nil_iff.mp hnil.symm).2 hrest
  | cons c cs ih =>
    cases before with
    | nil => exact absurd rfl hbefore
    | cons part parts =>
      rw [splitAtChar, List.cons_append] at h
      by_cases hc : c = separator
      · rw [if_pos hc] at h
        obtain ⟨rfl, hparts⟩ := List.cons.inj h
        cases parts with
        | nil => exact ⟨[], cs, by rw [hc, List.nil_append], rfl, hparts⟩
        | cons p ps =>
          obtain ⟨as, bs, rfl, has, hbs⟩ := ih hparts (List.cons_ne_nil p ps)
          refine ⟨c :: as, bs, rfl, ?_, hbs⟩
          rw [splitAtChar, if_pos hc, has]
      · rw [if_neg hc] at h
        cases hcs : splitAtChar separator cs with
        | nil => exact absurd hcs (splitAtChar_ne_nil separator cs)
        | cons p ps =>
          rw [hcs] at h ih
          obtain ⟨rfl, hparts⟩ := List.cons.inj h
          obtain ⟨as, bs, rfl, has, hbs⟩ :=
            ih (congrArg (p :: ·) hparts) (List.cons_ne_nil p parts)
          refine ⟨c :: as, bs, rfl, ?_, hbs⟩
          rw [splitAtChar, if_neg hc, has]

/-- A text has at least one part. -/
theorem splitString_ne_nil (separator : Char) (s : String) : splitString separator s ≠ [] := by
  rw [splitString, ne_eq, List.map_eq_nil_iff]
  exact splitAtChar_ne_nil separator s.toList

/-- A text without separators is its own only part. -/
theorem splitString_of_not_mem {separator : Char} {s : String} (h : separator ∉ s.toList) :
    splitString separator s = [s] := by
  rw [splitString, splitAtChar_of_not_mem h, List.map_singleton, String.ofList_toList]

/-- The parts of a path in front of a dot come first. -/
theorem splitString_dot (path rest : String) :
    splitString '.' (path ++ "." ++ rest) = splitString '.' path ++ splitString '.' rest := by
  have hdot : ".".toList = ['.'] := rfl
  simp only [splitString, String.toList_append, hdot, List.append_assoc, List.singleton_append,
    splitAtChar_append, List.map_append]

/-- Where the parts of a path are taken apart, there is a dot. -/
theorem exists_of_splitString_eq_append {path : String} {before rest : List String}
    (h : splitString '.' path = before ++ rest) (hbefore : before ≠ []) (hrest : rest ≠ []) :
    ∃ a b, path = a ++ "." ++ b ∧ splitString '.' a = before ∧ splitString '.' b = rest := by
  obtain ⟨parts, parts', hparts, rfl, rfl⟩ := List.map_eq_append_iff.mp h
  obtain ⟨as, bs, hpath, rfl, rfl⟩ := exists_of_splitAtChar_eq_append hparts
    (fun hnil ↦ hbefore (List.map_eq_nil_iff.mpr hnil))
    (fun hnil ↦ hrest (List.map_eq_nil_iff.mpr hnil))
  refine ⟨String.ofList as, String.ofList bs, ?_, ?_, ?_⟩
  · apply String.toList_inj.mp
    simp [hpath]
  · rw [splitString, String.toList_ofList]
  · rw [splitString, String.toList_ofList]

end FilterPipeline.Text
