import FilterPipeline.Json.Literal

/-!
# Tokens of a JSON text

The tokens are found in one walk over the characters. A string is gathered as written characters and
escaped UTF-16 units, and put together at its end; a number or a word is gathered up to the first
character that cannot belong to it, and judged as a whole.
-/

namespace FilterPipeline.Json

/-- A token of a JSON text. -/
inductive Token where
  | openList
  | closeList
  | openObject
  | closeObject
  | comma
  | colon
  /-- A string; missing when its escapes make no character. -/
  | text (s : Option String)
  /-- A number or one of the three words. -/
  | scalar (v : Source)

/-- A piece of a string: a character, or a UTF-16 unit given by its number. -/
inductive Piece where
  | char (c : Char)
  | unit (n : Nat)

namespace Piece

/-- Whether a unit is the first of a pair. -/
def isHigh (n : Nat) : Bool := 0xD800 ≤ n && n ≤ 0xDBFF

/-- Whether a unit is the second of a pair. -/
def isLow (n : Nat) : Bool := 0xDC00 ≤ n && n ≤ 0xDFFF

/-- The characters that pieces spell; two units that form a pair spell one, and a unit of a pair
that stands alone spells none. -/
def assemble : List Piece → Option (List Char)
  | [] => some []
  | .char c :: rest => (assemble rest).map (c :: ·)
  | .unit n :: rest =>
    if isHigh n then
      match rest with
      | .unit m :: rest =>
        if isLow m then
          (assemble rest).map (Char.ofNat (0x10000 + (n - 0xD800) * 0x400 + (m - 0xDC00)) :: ·)
        else none
      | _ => none
    else if isLow n then none
    else (assemble rest).map (Char.ofNat n :: ·)

end Piece

/-- The character that a letter after a backslash stands for. -/
def escaped? : Char → Option Char
  | '"' => some '"'
  | '\\' => some '\\'
  | '/' => some '/'
  | 'b' => some '\x08'
  | 'f' => some '\x0c'
  | 'n' => some '\n'
  | 'r' => some '\r'
  | 't' => some '\t'
  | _ => none

/-- The value of a hexadecimal digit. -/
def hexDigit? (c : Char) : Option Nat :=
  if '0' ≤ c && c ≤ '9' then some (c.toNat - '0'.toNat)
  else if 'a' ≤ c && c ≤ 'f' then some (c.toNat - 'a'.toNat + 10)
  else if 'A' ≤ c && c ≤ 'F' then some (c.toNat - 'A'.toNat + 10)
  else none

/-- The number or word that gathered characters are. -/
def scalar? (cs : List Char) : Option Source :=
  match String.ofList cs with
  | "null" => some .null
  | "true" => some (.bool true)
  | "false" => some (.bool false)
  | _ =>
    match Numeral.read? cs with
    | some n => if Literal.admits n then some (Literal.read n) else none
    | none => none

/-- What the walk is in the middle of; what it has gathered stands in reverse. -/
inductive Mode where
  | between
  | scalar (gathered : List Char)
  | text (gathered : List Piece)
  | escape (gathered : List Piece)
  | unit (gathered : List Piece) (missing value : Nat)

/-- The state of the walk: the tokens so far, in reverse, and what it is in the middle of. -/
structure Lexer where
  tokens : List Token
  mode : Mode

namespace Lexer

/-- Whether a character can belong to a number or a word. -/
def isScalarChar (c : Char) : Bool := c.isAlphanum || c == '+' || c == '-' || c == '.'

/-- Reads a character between two tokens. -/
def stepBetween (tokens : List Token) (c : Char) : Option Lexer :=
  let punctuation (t : Token) : Option Lexer := some ⟨t :: tokens, .between⟩
  if c == ' ' || c == '\n' || c == '\t' || c == '\r' then some ⟨tokens, .between⟩
  else if c == '[' then punctuation .openList
  else if c == ']' then punctuation .closeList
  else if c == '\x7b' then punctuation .openObject
  else if c == '\x7d' then punctuation .closeObject
  else if c == ',' then punctuation .comma
  else if c == ':' then punctuation .colon
  else if c == '"' then some ⟨tokens, .text []⟩
  else if isScalarChar c then some ⟨tokens, .scalar [c]⟩
  else none

/-- Reads one character. -/
def step (s : Lexer) (c : Char) : Option Lexer :=
  match s.mode with
  | .between => stepBetween s.tokens c
  | .scalar gathered =>
    if isScalarChar c then some ⟨s.tokens, .scalar (c :: gathered)⟩
    else do stepBetween (.scalar (← scalar? gathered.reverse) :: s.tokens) c
  | .text gathered =>
    if c == '"' then
      some ⟨.text ((Piece.assemble gathered.reverse).map String.ofList) :: s.tokens, .between⟩
    else if c == '\\' then some ⟨s.tokens, .escape gathered⟩
    else if c.val < 0x20 then none
    else some ⟨s.tokens, .text (.char c :: gathered)⟩
  | .escape gathered =>
    if c == 'u' then some ⟨s.tokens, .unit gathered 4 0⟩
    else do some ⟨s.tokens, .text (.char (← escaped? c) :: gathered)⟩
  | .unit gathered missing value => do
    let value := 16 * value + (← hexDigit? c)
    if missing == 1 then some ⟨s.tokens, .text (.unit value :: gathered)⟩
    else some ⟨s.tokens, .unit gathered (missing - 1) value⟩

/-- The tokens found, when the text may end here. -/
def finish? (s : Lexer) : Option (List Token) :=
  match s.mode with
  | .between => some s.tokens.reverse
  | .scalar gathered => do some ((.scalar (← scalar? gathered.reverse) :: s.tokens).reverse)
  | _ => none

end Lexer

/-- The tokens of a text. -/
def tokens? (text : String) : Option (List Token) := do
  (← text.toList.foldlM Lexer.step ⟨[], .between⟩).finish?

end FilterPipeline.Json
