import FilterPipeline.Text.Printable

/-!
# Quoted text

How a message quotes a name that a user typed: between double quotes, on one line, with every
character recognisable.
-/

namespace FilterPipeline.Text

/-- A code point in lower-case hexadecimal, without leading zeros. -/
def hex (n : Nat) : String := String.ofList (Nat.toDigits 16 n)

/-- A character as a quotation writes it. -/
def quotedChar (c : Char) : String :=
  match c with
  | '"' => "\\\""
  | '\\' => "\\\\"
  | '\n' => "\\n"
  | '\t' => "\\t"
  | '\r' => "\\r"
  | '\x00' => "\\0"
  | c => if isPrintable c then c.toString else "\\u\x7b" ++ hex c.toNat ++ "\x7d"

/-- A text between double quotes. -/
def quoted (s : String) : String :=
  "\"" ++ s.foldl (fun out c ↦ out ++ quotedChar c) "" ++ "\""

end FilterPipeline.Text
