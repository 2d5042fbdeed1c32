/-!
# Replacing parts of a text from left to right

A rule looks at what is left of a text and may replace its first characters. `replaceBy` applies a
rule wherever it fits, leftmost first, and never looks again at what a rule has written.
-/

namespace FilterPipeline.Text

/-- What a rule makes of a text: the characters to write, and how many it stands for. -/
structure Replacement where
  written : List Char
  consumed : Nat

/-- A rule replaces the first characters of a text, or does not apply to it. -/
abbrev Rule := List Char → Option Replacement

/-- Applies a rule to what follows once `skip` characters have been passed over. -/
def replaceByAfter (rule : Rule) : (skip : Nat) → List Char → List Char
  | _, [] => []
  | skip + 1, _ :: cs => replaceByAfter rule skip cs
  | 0, c :: cs =>
    match rule (c :: cs) with
    | some r => r.written ++ replaceByAfter rule (r.consumed - 1) cs
    | none => c :: replaceByAfter rule 0 cs

/-- Applies a rule wherever it fits and keeps every other character. -/
def replaceBy (rule : Rule) (cs : List Char) : List Char := replaceByAfter rule 0 cs

/-- What follows `start` in a text that begins with it. -/
def afterStart? : (start cs : List Char) → Option (List Char)
  | [], cs => some cs
  | _ :: _, [] => none
  | a :: start, c :: cs => if a = c then afterStart? start cs else none

/-- The rule that replaces one fixed text by another. -/
def literalRule (pattern written : List Char) : Rule := fun cs ↦
  (afterStart? pattern cs).map fun _ ↦ ⟨written, pattern.length⟩

/-- Replaces every occurrence of a fixed text, leftmost first. -/
def replaceAll (pattern written : String) (cs : List Char) : List Char :=
  replaceBy (literalRule pattern.toList written.toList) cs

/-- Passing over characters and treating the rest is treating what is left of the text. -/
theorem replaceByAfter_eq_drop (rule : Rule) (n : Nat) (cs : List Char) :
    replaceByAfter rule n cs = replaceBy rule (cs.drop n) := by
  induction n generalizing cs with
  | zero => rfl
  | succ n ih =>
    cases cs with
    | nil => rfl
    | cons c cs => exact ih cs

/-- A text that a fixed start precedes is that start and what follows it. -/
theorem afterStart?_eq_some_iff {start cs rest : List Char} :
    afterStart? start cs = some rest ↔ cs = start ++ rest := by
  induction start generalizing cs with
  | nil => simp [afterStart?, eq_comm]
  | cons a start ih =>
    cases cs with
    | nil => simp [afterStart?]
    | cons c cs =>
      by_cases h : a = c
      · simp [afterStart?, h, ih]
      · simp [afterStart?, h, Ne.symm h]

end FilterPipeline.Text
