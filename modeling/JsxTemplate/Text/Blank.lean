/-!
# White space

The characters that count as blank in a template, and cutting them off the two ends of a text.
-/

namespace JsxTemplate.Text

/-- A character with the Unicode property `White_Space`. -/
def isBlank (c : Char) : Bool :=
  let n := c.toNat
  (9 ≤ n && n ≤ 13) || n == 0x20 || n == 0x85 || n == 0xA0 || n == 0x1680
    || (0x2000 ≤ n && n ≤ 0x200A) || n == 0x2028 || n == 0x2029 || n == 0x202F || n == 0x205F
    || n == 0x3000

def trimLeft (cs : List Char) : List Char :=
  cs.dropWhile isBlank

def trimRight (cs : List Char) : List Char :=
  (cs.reverse.dropWhile isBlank).reverse

def trimStart (s : String) : String :=
  String.ofList (trimLeft s.toList)

def trimEnd (s : String) : String :=
  String.ofList (trimRight s.toList)

def trim (s : String) : String :=
  String.ofList (trimLeft (trimRight s.toList))

def isEmptyOrBlank (s : String) : Bool :=
  s.toList.all isBlank

/-- The text with every blank removed, also those between its words. -/
def withoutBlanks (s : String) : String :=
  String.ofList (s.toList.filter fun c => !isBlank c)

end JsxTemplate.Text
