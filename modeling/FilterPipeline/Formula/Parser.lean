import FilterPipeline.Formula.Basic
import FilterPipeline.Formula.Cleaning
import FilterPipeline.Number.Numeral

/-!
# Reading formulas

A plain formula is split at its main operator, and so are its parts. What cannot be understood, and
what lies deeper than the limit, stays as a field with that text, so reading never fails.
-/

namespace FilterPipeline.Formula

open Text

/-- For every position of a text that holds an opening parenthesis, the position of the one that
closes it. -/
def partners (cs : List Char) : Array (Option Nat) :=
  (cs.zipIdx.foldl
    (fun (stack, found) (c, i) ↦
      if c = '(' then (i :: stack, found)
      else if c = ')' then
        match stack with
        | [] => ([], found)
        | opening :: stack => (stack, found.setIfInBounds opening (some i))
      else (stack, found))
    (([] : List Nat), Array.replicate cs.length none)).2

/-- The positions of one kind of parenthesis in the run of such parentheses and spaces that a text
with positions begins with. -/
def outerPositions (parenthesis : Char) (cs : List (Char × Nat)) : List Nat :=
  (cs.takeWhile fun (c, _) ↦ c == parenthesis || c == ' ').filterMap fun (c, i) ↦
    if c == parenthesis then some i else none

/-- The positions of the parentheses that wrap a whole text, outermost first: the opening ones at
the start and the closing ones at the end that belong together. -/
def wrappingPairs (cs : List Char) : List (Nat × Nat) :=
  let leading := outerPositions '(' cs.zipIdx
  let trailing := outerPositions ')' cs.zipIdx.reverse
  let found := partners cs
  (leading.zip trailing).takeWhile fun (opening, closing) ↦
    opening < closing && found[opening]?.join == some closing

/-- A text without the parentheses that wrap the whole of it. -/
def stripParentheses (cs : List Char) : List Char :=
  match (wrappingPairs cs).getLast? with
  | none => cs
  | some (opening, closing) => trim ((cs.take closing).drop (opening + 1))

/-- The function and the argument of a text that is one call. -/
def splitCall? (cs : List Char) : Option (MathFunction × List Char) :=
  match cs.dropWhile (· != '(') with
  | [] => none
  | _ :: rest => do
    let f ← MathFunction.ofName? (cs.takeWhile (· != '('))
    let (inside, after) ← splitClose '(' ')' 1 [] rest
    if after.isEmpty && !allBlank inside then some (f, inside) else none

/-- A text taken apart at an operator. -/
structure Split where
  left : List Char
  op : BinaryOp
  right : List Char

/-- Whether a plus or minus behind this text, given in reverse, is a sign: at the start, behind an
operator or an opening parenthesis, or between the mantissa and the exponent of a number. -/
def isSignAfter (before : List Char) : Bool :=
  match before.dropWhile (· == ' ') with
  | [] => true
  | last :: rest =>
    "+-*/^(".toList.contains last ||
      ((last == 'e' || last == 'E') && before.head? == some last &&
        rest.head?.any Char.isDigit &&
        !(rest.dropWhile fun c ↦ c.isDigit || c == '.').head?.any fun c ↦ c.isAlphanum || c == '_')

/-- The place between two parts, the first given in reverse, as a place to split at: its character
is an operator, not a sign, and there is something on both sides. -/
def splitAt? (before : List Char) (c : Char) (after : List Char) : Option Split :=
  match BinaryOp.ofChar? c with
  | none => none
  | some op =>
    if op.isSign && isSignAfter before then none
    else if allBlank before || allBlank after then none
    else some ⟨before, op, after⟩

/-- Of a place to split at and one further left, the one that is preferred: the one that binds less
tightly, of equals the right one, save that a chain grouped from the right is split at its left
end. -/
def preferred (best : Option Split) (next : Split) : Option Split :=
  match best with
  | none => some next
  | some current =>
    if next.op.precedence < current.op.precedence then some next
    else if next.op.precedence = current.op.precedence ∧ next.op.isRightAssociative then some next
    else some current

/-- Walks over a text from its end, with what is still to come in reverse and what lies behind, the
number of closing less opening parentheses behind, and the best place found. -/
def findSplit : (before after : List Char) → (depth : Int) → Option Split → Option Split
  | [], _, _, best => best
  | c :: before, after, depth, best =>
    if c = ')' then findSplit before (c :: after) (depth + 1) best
    else if c = '(' then findSplit before (c :: after) (depth - 1) best
    else
      let best :=
        if depth = 0 then
          match splitAt? before c after with
          | some next => preferred best next
          | none => best
        else best
      findSplit before (c :: after) depth best

/-- A text taken apart at its main operator. -/
def mainOperator? (cs : List Char) : Option Split :=
  (findSplit cs.reverse [] 0 none).map fun s ↦ { s with left := s.left.reverse }

/-- The byte of a text that holds its main operator, and the operator. -/
def mainPosition? (text : String) : Option (Nat × BinaryOp) :=
  (mainOperator? text.toList).map fun s ↦ ((String.ofList s.left).utf8ByteSize, s.op)

/-- The number that a text is. -/
def numberLiteral? (cs : List Char) : Option Double := do
  let n ← Numeral.read? cs
  if n.sign != some '+' && n.hasDigits then some n.toDouble else none

/-- Whether a character can be the first of an identifier. -/
def isIdentifierStart (c : Char) : Bool := c.isAlpha || c == '_'

/-- Whether a character can stand in an identifier. -/
def isIdentifierChar (c : Char) : Bool := c.isAlphanum || c == '_' || c == '.'

/-- Whether a text is an identifier: ASCII letters, digits, underscores and dots, the first of them
a letter or an underscore. -/
def isIdentifier : List Char → Bool
  | [] => false
  | c :: cs => isIdentifierStart c && cs.all isIdentifierChar

/-- The formula of a plain text, of at most `levels` levels. -/
def ofPlain : (levels : Nat) → List Char → Formula
  | 0, cs => .field (String.ofList (trim cs))
  | levels + 1, cs =>
    let cs := stripParentheses (trim cs)
    match splitCall? cs with
    | some (f, arg) => .call f (ofPlain levels arg)
    | none =>
      match mainOperator? cs with
      | some s => .binary s.op (ofPlain levels s.left) (ofPlain levels s.right)
      | none =>
        match numberLiteral? cs with
        | some x => .number x
        | none =>
          if isIdentifier cs then .field (String.ofList cs)
          else
            match cs with
            | '-' :: rest =>
              if allBlank rest then .field (String.ofList cs) else .negate (ofPlain levels rest)
            | '+' :: rest =>
              if allBlank rest then .field (String.ofList cs) else ofPlain levels rest
            | _ => .field (String.ofList cs)

/-- The formula of a text, with a limit on the depth of fractions and operators. -/
def parseWithin (limit : Nat) (s : String) : Formula :=
  ofPlain (limit + 1) (cleanWithin limit s.toList)

/-- The formula of a text. -/
def parse (s : String) : Formula := parseWithin defaultLimit s

end FilterPipeline.Formula
