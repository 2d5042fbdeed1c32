/-!
# Blank characters

The Unicode characters that count as white space, and what is left of a text between the blanks at
its two ends.
-/

namespace FilterPipeline.Text

/-- The characters with the Unicode property `White_Space`. -/
def isBlank (c : Char) : Bool :=
  let n := c.val
  (0x09 ≤ n && n ≤ 0x0D) || n == 0x20 || n == 0x85 || n == 0xA0 || n == 0x1680 ||
    (0x2000 ≤ n && n ≤ 0x200A) || n == 0x2028 || n == 0x2029 || n == 0x202F || n == 0x205F ||
    n == 0x3000

/-- What is left of the characters once the blanks at the end are dropped. -/
def trimRight (cs : List Char) : List Char := (cs.reverse.dropWhile isBlank).reverse

/-- What is left of the characters once the blanks at both ends are dropped. -/
def trim (cs : List Char) : List Char := trimRight (cs.dropWhile isBlank)

/-- Whether the characters are all blank. -/
def allBlank (cs : List Char) : Bool := cs.all isBlank

/-- A text without the blanks at its two ends. -/
def trimmed (s : String) : String := String.ofList (trim s.toList)

/-- A text without the blanks at its two ends, when something is left of it. -/
def trimmed? (s : String) : Option String :=
  let t := trimmed s
  if t.isEmpty then none else some t

/-- Without blanks at the end, a text is the start of what it was. -/
theorem trimRight_prefix (cs : List Char) : trimRight cs <+: cs := by
  rw [trimRight, ← List.reverse_suffix, List.reverse_reverse]
  exact List.dropWhile_suffix _

/-- Nothing is dropped where the first character is no blank. -/
theorem dropWhile_isBlank_eq_self {cs : List Char}
    (h : ∀ c, cs.head? = some c → isBlank c = false) : cs.dropWhile isBlank = cs := by
  cases cs with
  | nil => rfl
  | cons c cs => simp [h c rfl]

/-- A text without blanks at its ends stays as it is. -/
theorem trim_trim (cs : List Char) : trim (trim cs) = trim cs := by
  have hnot : ∀ (cs : List Char) (c : Char), (cs.dropWhile isBlank).head? = some c →
      isBlank c = false := by
    intro cs c hc
    have := List.head?_dropWhile_not isBlank cs
    rw [hc] at this
    simpa using this
  have hleft : (trim cs).dropWhile isBlank = trim cs := by
    apply dropWhile_isBlank_eq_self
    intro c hc
    obtain ⟨rest, hrest⟩ := trimRight_prefix (cs.dropWhile isBlank)
    apply hnot cs c
    rw [← hrest, List.head?_append, show (trimRight (cs.dropWhile isBlank)).head? = some c from hc]
    rfl
  have hright : trimRight (trim cs) = trim cs := by
    simp only [trim, trimRight, List.reverse_reverse]
    rw [dropWhile_isBlank_eq_self fun c hc ↦ hnot _ c hc]
  rw [trim, hleft, hright]

/-- What is left of a text without its blanks is left of it once more. -/
theorem trimmed?_of_trimmed? {s t : String} (h : trimmed? s = some t) : trimmed? t = some t := by
  simp only [trimmed?] at h
  split at h
  · cases h
  · next hne =>
    cases h
    simp only [trimmed?, trimmed, String.toList_ofList, trim_trim] at hne ⊢
    rw [if_neg hne]

/-- What is left of a text without its blanks is not empty, and its characters are those of the
text. -/
theorem subset_of_trimmed? {s t : String} (h : trimmed? s = some t) :
    t ≠ "" ∧ t.toList ⊆ s.toList := by
  simp only [trimmed?] at h
  split at h
  · cases h
  · next hne =>
    cases h
    refine ⟨fun hempty ↦ hne (String.isEmpty_iff.mpr hempty), ?_⟩
    rw [trimmed, String.toList_ofList, trim]
    have hright := trimRight_prefix (s.toList.dropWhile isBlank)
    exact List.Subset.trans hright.subset (List.dropWhile_sublist _).subset

end FilterPipeline.Text
