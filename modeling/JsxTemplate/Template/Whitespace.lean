import JsxTemplate.Text.Blank

/-!
# White space in the text of a template

Text between tags may run over several lines. The indentation is not part of what the author means:
every line is trimmed except at the two outer edges of the text, blank lines are dropped, and what
remains is joined by single spaces. Text on one line keeps its blanks. A tab counts as a space.
-/

namespace JsxTemplate

/-- Every tab turned into a space. -/
def untab (cs : List Char) : List Char :=
  cs.map fun c => if c == '\t' then ' ' else c

/-- The index of the last line that holds more than blanks. -/
def lastInkedLine? (lines : List (List Char)) : Option Nat :=
  (lines.reverse.findIdx? fun line => line.any fun c => !Text.isBlank c).map
    fun i => lines.length - 1 - i

/-- Line number `i` of `count`, trimmed on its inner sides, with a space after it if a later line
holds more than blanks. -/
def cleanLine (count : Nat) (lastInked : Option Nat) (line : List Char) (i : Nat) : List Char :=
  let line := (line.reverse.dropWhile (· == '\r')).reverse
  let line := if i == 0 then line else Text.trimLeft line
  let line := if i + 1 == count then line else Text.trimRight line
  if line.isEmpty then []
  else untab line ++ if lastInked.any (i < ·) then [' '] else []

/-- The text that a stretch of character data stands for. -/
def cleanText (s : String) : String :=
  let cs := s.toList
  if cs.contains '\n' then
    let lines := cs.splitOn '\n'
    let clean := cleanLine lines.length (lastInkedLine? lines)
    String.ofList (lines.zipIdx.flatMap fun line => clean line.1 line.2)
  else String.ofList (untab cs)

end JsxTemplate
