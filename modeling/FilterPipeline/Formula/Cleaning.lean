import FilterPipeline.Text.Blank
import FilterPipeline.Text.Replacement
import FilterPipeline.Text.Word

/-!
# Plain formulas

Formulas are typed in a mix of plain infix notation and LaTeX. Cleaning leaves plain text with one
kind of bracket: fractions become quotients of parenthesised parts, bars become calls of `abs`,
braces become parentheses, and blanks shrink to single spaces.
-/

namespace FilterPipeline.Formula

open Text

/-- Splits a text behind an opening bracket at the bracket that closes it, `depth` brackets being
open. The part before is gathered in reverse. -/
def splitClose (opening closing : Char) :
    (depth : Nat) → (inside : List Char) → List Char → Option (List Char × List Char)
  | _, _, [] => none
  | depth, inside, c :: cs =>
    if c = opening then splitClose opening closing (depth + 1) (c :: inside) cs
    else if c = closing then
      if depth ≤ 1 then some (inside.reverse, cs)
      else splitClose opening closing (depth - 1) (c :: inside) cs
    else splitClose opening closing depth (c :: inside) cs

/-- An argument in braces at the start of a text, blanks before it aside: the text between the
braces, how many characters it takes with its braces and blanks, and what follows. -/
def bracedArgument? (cs : List Char) : Option (List Char × Nat × List Char) :=
  match cs.dropWhile isBlank with
  | '\x7b' :: rest => do
    let (inside, rest) ← splitClose '\x7b' '\x7d' 1 [] rest
    some (inside, (cs.takeWhile isBlank).length + inside.length + 2, rest)
  | _ => none

/-- The commands that begin a fraction. -/
def fractionCommands : List String := ["\\dfrac", "\\tfrac", "\\frac"]

/-- Turns a fraction into a quotient of its two parts, which `expand` treats in turn. -/
def fractionRule (expand : List Char → List Char) : Rule := fun cs ↦ do
  let (command, rest) ← fractionCommands.findSome? fun command ↦
    (afterStart? command.toList cs).map (command, ·)
  let (num, numLength, rest) ← bracedArgument? rest
  let (den, denLength, _) ← bracedArgument? rest
  some ⟨'(' :: expand num ++ ")/(".toList ++ expand den ++ [')'],
    command.length + numLength + denLength⟩

/-- Turns every fraction nested at most `budget` deep into a quotient. -/
def expandFractions : (budget : Nat) → List Char → List Char
  | 0, cs => cs
  | budget + 1, cs => replaceBy (fractionRule (expandFractions budget)) cs

/-- Takes the braces off a subscript that holds no braces itself. -/
def subscriptRule : Rule
  | '_' :: '\x7b' :: cs =>
    let inside := cs.takeWhile fun c ↦ c != '\x7b' && c != '\x7d'
    match cs.drop inside.length with
    | '\x7d' :: _ => some ⟨'_' :: inside, inside.length + 3⟩
    | _ => none
  | _ => none

/-- The character that stands for an opening bar once its side is known. -/
def openingBar : Char := '\x01'

/-- The character that stands for a closing bar once its side is known. -/
def closingBar : Char := '\x02'

/-- The fixed texts that are replaced, in the order in which they are. -/
def delimiters : List (String × String) :=
  [("\\left|", openingBar.toString), ("\\right|", closingBar.toString),
    ("\\left\\\x7b", "("), ("\\right\\\x7d", ")"), ("\\left(", "("), ("\\right)", ")"),
    ("\\left[", "("), ("\\right]", ")"), ("\\left.", ""), ("\\right.", ""),
    ("\\cdot", "*"), ("\\times", "*"), ("\\div", "/"), ("\\,", " "), ("\\;", " "), ("\\!", ""),
    ("left|", openingBar.toString), ("|right", closingBar.toString)]

/-- Replaces the fixed texts one after the other. -/
def replaceDelimiters (cs : List Char) : List Char :=
  delimiters.foldl (fun cs (pattern, written) ↦ replaceAll pattern written cs) cs

/-- The functions that may be written as commands. -/
def commandFunctions : List String := ["sqrt", "sin", "cos", "tan", "log", "ln", "abs"]

/-- Takes the backslash off a function's name where a word ends behind the name. -/
def commandRule : Rule
  | '\\' :: cs =>
    commandFunctions.findSome? fun name ↦ do
      let rest ← afterStart? name.toList cs
      if rest.head?.any isWordChar then none else some ⟨name.toList, name.length + 1⟩
  | _ => none

/-- What has been written of a text whose bars are being replaced, in reverse, and how many bars are
open. -/
structure Bars where
  written : List Char
  pending : Nat

namespace Bars

/-- Whether the next character begins an operand. -/
def startsOperand (b : Bars) : Bool :=
  match (b.written.dropWhile isBlank).head? with
  | none => true
  | some c => "+-*/^(\x7b[,".toList.contains c

/-- Begins an absolute value. -/
def begin (b : Bars) : Bars := ⟨"abs(".toList.reverse ++ b.written, b.pending + 1⟩

/-- Ends an absolute value, if one is open. -/
def finish (b : Bars) : Bars :=
  if 0 < b.pending then ⟨')' :: b.written, b.pending - 1⟩ else b

/-- Reads one character. A bar whose side is not told begins an absolute value where an operand may
begin and ends one elsewhere. -/
def step (b : Bars) (c : Char) : Bars :=
  if c = openingBar then b.begin
  else if c = closingBar then b.finish
  else if c = '|' then if b.pending = 0 || b.startsOperand then b.begin else b.finish
  else ⟨c :: b.written, b.pending⟩

end Bars

/-- Turns every form of absolute value into a call of `abs`; those still open at the end are closed
there. -/
def unifyBars (cs : List Char) : List Char :=
  let b := cs.foldl Bars.step ⟨[], 0⟩
  b.written.reverse ++ List.replicate b.pending ')'

/-- Turns braces and square brackets into parentheses. -/
def toParenthesis (c : Char) : Char :=
  if c = '\x7b' ∨ c = '[' then '(' else if c = '\x7d' ∨ c = ']' then ')' else c

/-- Shrinks every run of blanks to one space. -/
def collapseBlanks : (afterBlank : Bool) → List Char → List Char
  | _, [] => []
  | afterBlank, c :: cs =>
    if isBlank c then
      if afterBlank then collapseBlanks true cs else ' ' :: collapseBlanks true cs
    else c :: collapseBlanks false cs

/-- The plain text of a formula; fractions nested deeper than `limit` keep their commands. -/
def cleanWithin (limit : Nat) (cs : List Char) : List Char :=
  let cs := expandFractions limit cs
  let cs := replaceBy subscriptRule cs
  let cs := replaceDelimiters cs
  let cs := replaceBy commandRule cs
  let cs := unifyBars cs
  trim (collapseBlanks false (cs.map toParenthesis))

/-- How deep fractions and operators may be nested where nothing else is said. -/
def defaultLimit : Nat := 10

/-- The plain text of a formula. -/
def clean (s : String) : String := String.ofList (cleanWithin defaultLimit s.toList)

end FilterPipeline.Formula
