import JsxTemplate.Text.Bytes

/-!
# Positions in a source text

A position is a byte offset together with the line and the column it falls on, both counted from one
and the column in bytes. A location is a range of them with the text it covers.

The line of an offset is found in the table of line breaks of the whole source (`LineTable`). Inside a
piece of text whose own start is known, a position is found by walking over the piece
(`Position.advance`).
-/

namespace JsxTemplate

structure Position where
  offset : Nat
  line : Nat
  /-- The column in bytes, from one. -/
  column : Nat
  deriving DecidableEq, Repr

namespace Position

def first : Position := ⟨0, 1, 1⟩

/-- The position after a walk over the first `n` bytes of `cs`, or over all of it if it is shorter. -/
def advance (p : Position) : List Char → Nat → Position
  | [], _ => p
  | _ :: _, 0 => p
  | c :: cs, n + 1 =>
    if c == '\n' then advance ⟨p.offset + 1, p.line + 1, 1⟩ cs n
    else
      let k := min c.utf8Size (n + 1)
      advance ⟨p.offset + k, p.line, p.column + k⟩ cs (n + 1 - k)

end Position

/-- A range of a source text, from `start` up to but not including `stop`. -/
structure Location where
  start : Position
  stop : Position
  text : String
  deriving DecidableEq, Repr

namespace Location

/-- The location of what stands nowhere in the source. -/
def stub : Location := ⟨.first, .first, ""⟩

instance : Inhabited Location := ⟨stub⟩

/-- Whether a location is no place of the source: both of its ends are at offset zero. -/
def isStub (l : Location) : Bool :=
  l.start.offset == 0 && l.stop.offset == 0

end Location

/-- The offsets of the line breaks of a source, in ascending order. -/
structure LineTable where
  source : String
  breaks : List Nat
  deriving Repr

namespace LineTable

/-- The offsets of the line breaks in `cs`, which starts at `offset`. -/
def breaksFrom (offset : Nat) : List Char → List Nat
  | [] => []
  | c :: cs =>
    if c == '\n' then offset :: breaksFrom (offset + 1) cs
    else breaksFrom (offset + c.utf8Size) cs

def ofSource (source : String) : LineTable :=
  ⟨source, breaksFrom 0 source.toList⟩

/-- The position of an offset: its line is one more than the number of breaks before it, and its
column is counted from the last of these. -/
def position (t : LineTable) (offset : Nat) : Position :=
  let before := t.breaks.takeWhile (· < offset)
  match before.getLast? with
  | none => ⟨offset, 1, offset + 1⟩
  | some lineBreak => ⟨offset, before.length + 1, offset - lineBreak⟩

/-- The location of a range of offsets, cut at the end of the source. -/
def location (t : LineTable) (start stop : Nat) : Location :=
  let stop := min stop t.source.utf8ByteSize
  let start := min start stop
  ⟨t.position start, t.position stop, Text.slice t.source start stop⟩

end LineTable

end JsxTemplate
