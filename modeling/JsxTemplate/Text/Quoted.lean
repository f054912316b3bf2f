/-!
# String literals

A text written between double quotes, as a string of JSON and of the generated code. The quote, the
backslash and the control characters are escaped; everything else stands for itself.
-/

namespace JsxTemplate.Text

/-- The last hexadecimal digit of a number. -/
def hexDigit (n : Nat) : Char :=
  Nat.digitChar (n % 16)

/-- One character inside a string literal. -/
def quoteChar (c : Char) : List Char :=
  match c with
  | '"' => ['\\', '"']
  | '\\' => ['\\', '\\']
  | '\n' => ['\\', 'n']
  | '\r' => ['\\', 'r']
  | '\t' => ['\\', 't']
  | '\x08' => ['\\', 'b']
  | '\x0c' => ['\\', 'f']
  | c =>
    if c.toNat < 0x20 then ['\\', 'u', '0', '0', hexDigit (c.toNat / 16), hexDigit c.toNat]
    else [c]

def quote (s : String) : String :=
  String.ofList ('"' :: s.toList.flatMap quoteChar ++ ['"'])

/-- An array literal of string literals, written without spaces. -/
def quoteList (items : List String) : String :=
  "[" ++ String.intercalate "," (items.map quote) ++ "]"

end JsxTemplate.Text
