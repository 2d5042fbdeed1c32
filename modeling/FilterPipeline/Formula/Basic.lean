import FilterPipeline.Number.Double
import FilterPipeline.Text.Blank

/-!
# Formulas

The arithmetic that a user writes in mathematical notation, as a tree of numbers, fields, binary
operators, function calls and negations.
-/

namespace FilterPipeline

/-- A binary arithmetic operator. -/
inductive BinaryOp where
  | add
  | subtract
  | multiply
  | divide
  | power
deriving DecidableEq, Repr

namespace BinaryOp

/-- The character that an operator is written with. -/
def symbol : BinaryOp → Char
  | add => '+'
  | subtract => '-'
  | multiply => '*'
  | divide => '/'
  | power => '^'

/-- The operator that a character writes. -/
def ofChar? : Char → Option BinaryOp
  | '+' => some add
  | '-' => some subtract
  | '*' => some multiply
  | '/' => some divide
  | '^' => some power
  | _ => none

/-- How tightly an operator binds. -/
def precedence : BinaryOp → Nat
  | add | subtract => 1
  | multiply | divide => 2
  | power => 3

/-- Whether a chain of the operator is grouped from the right. -/
def isRightAssociative (op : BinaryOp) : Bool := op == power

/-- Whether the operator's character can also be a sign. -/
def isSign (op : BinaryOp) : Bool := op == add || op == subtract

/-- The key of the operator in an aggregation expression. -/
def key : BinaryOp → String
  | add => "$add"
  | subtract => "$subtract"
  | multiply => "$multiply"
  | divide => "$divide"
  | power => "$pow"

/-- Sums and differences bind least tightly, products and quotients more so, and powers most
tightly; only chains of powers are grouped from the right. -/
theorem precedence_order :
    add.precedence = subtract.precedence ∧ subtract.precedence < multiply.precedence ∧
      multiply.precedence = divide.precedence ∧ divide.precedence < power.precedence ∧
      ∀ op : BinaryOp, op.isRightAssociative = true ↔ op = power := by
  refine ⟨rfl, by decide, rfl, by decide, fun op ↦ ?_⟩
  cases op <;> decide

/-- No operator binds more tightly than powers do. -/
theorem precedence_le (op : BinaryOp) : op.precedence ≤ 3 := by cases op <;> decide

/-- An operator is read back from its character. -/
theorem ofChar?_symbol (op : BinaryOp) : ofChar? op.symbol = some op := by cases op <;> rfl

end BinaryOp

/-- A function of one argument. -/
inductive MathFunction where
  | abs
  | sqrt
  | sin
  | cos
  | tan
  /-- The logarithm to base ten. -/
  | log
  /-- The natural logarithm. -/
  | ln
deriving DecidableEq, Repr

namespace MathFunction

/-- All functions. -/
def all : List MathFunction := [abs, sqrt, sin, cos, tan, log, ln]

/-- The name of a function. -/
def name : MathFunction → String
  | abs => "abs"
  | sqrt => "sqrt"
  | sin => "sin"
  | cos => "cos"
  | tan => "tan"
  | log => "log"
  | ln => "ln"

/-- The key of a function in an aggregation expression. -/
def key : MathFunction → String
  | abs => "$abs"
  | sqrt => "$sqrt"
  | sin => "$sin"
  | cos => "$cos"
  | tan => "$tan"
  | log => "$log10"
  | ln => "$ln"

/-- The function that characters name, blanks around them and the case of letters aside. -/
def ofName? (cs : List Char) : Option MathFunction :=
  let lowered := (Text.trim cs).map Char.toLower
  all.find? fun f ↦ f.name.toList == lowered

end MathFunction

/-- An arithmetic formula. -/
inductive Formula where
  | number (x : Double)
  /-- A field path, or the text of a part that could not be understood. -/
  | field (path : String)
  | binary (op : BinaryOp) (left right : Formula)
  | call (f : MathFunction) (arg : Formula)
  | negate (arg : Formula)
deriving DecidableEq, Repr, Inhabited

namespace Formula

/-- Whether two formulas are equal; numbers are compared as numbers. -/
def same : Formula → Formula → Bool
  | number x, number y => x.same y
  | field p, field q => p == q
  | binary op a b, binary op' a' b' => op == op' && same a a' && same b b'
  | call f a, call f' a' => f == f' && same a a'
  | negate a, negate a' => same a a'
  | _, _ => false

/-- The number of nodes on the longest way from the root to a leaf. -/
def depth : Formula → Nat
  | number _ | field _ => 1
  | binary _ left right => 1 + max left.depth right.depth
  | call _ arg | negate arg => 1 + arg.depth

/-- The field leaves from left to right. -/
def fields : Formula → List String
  | number _ => []
  | field path => [path]
  | binary _ left right => left.fields ++ right.fields
  | call _ arg | negate arg => arg.fields

/-- Replaces the field leaves for which there is a replacement. -/
def substitute (replacement : String → Option Formula) : Formula → Formula
  | number x => number x
  | field path => (replacement path).getD (field path)
  | binary op left right => binary op (left.substitute replacement) (right.substitute replacement)
  | call f arg => call f (arg.substitute replacement)
  | negate arg => negate (arg.substitute replacement)

end Formula
end FilterPipeline
