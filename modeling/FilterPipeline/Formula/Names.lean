import FilterPipeline.Formula.Parser
import FilterPipeline.Reference

/-!
# Names in a formula

The names that a formula depends on are read off its plain text, token by token, without building
the tree.
-/

namespace FilterPipeline.Formula

/-- Words that LaTeX notation leaves behind and that name no field. -/
def notationWords : List String :=
  ["left", "right", "frac", "dfrac", "tfrac", "cdot", "times", "div", "operatorname"]

/-- What a walk over a text is in the middle of: the character before, or an identifier in reverse
and whether it is kept. -/
inductive TokenState where
  | outside (previous : Option Char)
  | inside (token : List Char) (kept : Bool)

/-- The identifiers found so far, in reverse, and the state of the walk. -/
structure TokenWalk where
  found : List (List Char)
  state : TokenState

namespace TokenWalk

/-- The identifiers found when an identifier, if one is being read, ends here. -/
def close (w : TokenWalk) : List (List Char) :=
  match w.state with
  | .inside token true => token.reverse :: w.found
  | _ => w.found

/-- Reads one character. An identifier directly behind a digit, a dot or a backslash is not kept. -/
def step (w : TokenWalk) (c : Char) : TokenWalk :=
  match w.state with
  | .outside previous =>
    if isIdentifierStart c then
      ⟨w.found, .inside [c] !(previous.any fun p ↦ p.isDigit || p == '.' || p == '\\')⟩
    else ⟨w.found, .outside (some c)⟩
  | .inside token kept =>
    if isIdentifierChar c then ⟨w.found, .inside (c :: token) kept⟩
    else ⟨w.close, .outside (some c)⟩

end TokenWalk

/-- The identifiers of a plain text from left to right. -/
def identifiers (cs : List Char) : List (List Char) :=
  (cs.foldl TokenWalk.step ⟨[], .outside none⟩).close.reverse

/-- An identifier without the dots at its end. -/
def dropDots (cs : List Char) : List Char := (cs.reverse.dropWhile (· == '.')).reverse

/-- The name that an identifier gives to depend on: function names, words of the notation and paths
relative to an array element give none. -/
def dependency? (token : List Char) : Option String :=
  let token := dropDots token
  let name := String.ofList token
  if token.isEmpty || (MathFunction.ofName? token).isSome || notationWords.contains name ||
      isElementPath name then none
  else some name

/-- The items of a list without repetitions, each at its first place. -/
def firstOccurrences (names : List String) : List String :=
  (names.foldl (fun seen name ↦ if seen.contains name then seen else name :: seen) []).reverse

/-- The names that a formula depends on, each once, in the order of their first occurrence. -/
def dependencies (s : String) : List String :=
  firstOccurrences ((identifiers (cleanWithin defaultLimit s.toList)).filterMap dependency?)

end FilterPipeline.Formula
