/-!
# Byte offsets

Places in a text are counted in bytes of its UTF-8 form. A range of bytes is a piece of the text only
if both of its ends fall between two characters.
-/

namespace JsxTemplate.Text

/-- The number of bytes a list of characters takes in UTF-8. -/
def byteLength : List Char → Nat
  | [] => 0
  | c :: cs => c.utf8Size + byteLength cs

/-- What remains after the first `n` bytes, if they end between two characters. -/
def dropBytes : List Char → Nat → Option (List Char)
  | cs, 0 => some cs
  | [], _ + 1 => none
  | c :: cs, n + 1 => if c.utf8Size ≤ n + 1 then dropBytes cs (n + 1 - c.utf8Size) else none

/-- The first `n` bytes, if they end between two characters. -/
def takeBytes : List Char → Nat → Option (List Char)
  | _, 0 => some []
  | [], _ + 1 => none
  | c :: cs, n + 1 =>
    if c.utf8Size ≤ n + 1 then (takeBytes cs (n + 1 - c.utf8Size)).map (c :: ·) else none

/-- The piece of the text from byte `start` up to byte `stop`, if there is one. -/
def slice? (s : String) (start stop : Nat) : Option String :=
  if start ≤ stop then
    ((dropBytes s.toList start).bind fun cs => takeBytes cs (stop - start)).map String.ofList
  else none

def slice (s : String) (start stop : Nat) : String :=
  (slice? s start stop).getD ""

/-- Whether the first `n` bytes of the text end between two characters. -/
def isBoundary (s : String) (n : Nat) : Bool :=
  (takeBytes s.toList n).isSome

/-- Why a piece cannot be cut out of a text. -/
inductive CutFault where
  /-- The range stops before it starts. -/
  | inverted
  /-- An end of the range lies inside a character. -/
  | insideCharacter
  deriving DecidableEq, Repr

/-- The number of UTF-16 units a list of characters takes. -/
def unitLength : List Char → Nat
  | [] => 0
  | c :: cs => (if c.toNat < 0x10000 then 1 else 2) + unitLength cs

end JsxTemplate.Text
