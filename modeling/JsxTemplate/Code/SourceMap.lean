import JsxTemplate.Code.Layout
import JsxTemplate.Text.Quoted

/-!
# Source maps

A source map of version 3 says for places of the code where they come from. Its mappings are written
line by line; a number is written as the difference to the one before it, in digits of base 64 with five
bits each, the lowest first.
-/

namespace JsxTemplate

structure SourceMap where
  file : String
  source : String
  names : List String
  mappings : String
  deriving DecidableEq, Repr

namespace SourceMap

/-! ## Segments -/

/-- A place on a line of the code, and where it comes from. -/
structure Segment where
  column : Nat
  sourceLine : Nat
  /-- The column of the source in UTF-16 units, from zero. -/
  sourceColumn : Nat
  name : Option Nat
  deriving DecidableEq, Repr

/-- The column in UTF-16 units of the place behind some text. -/
def columnAfter (cs : List Char) : Nat :=
  Text.unitLength (cs.reverse.takeWhile (· != '\n')).reverse

/-- An offset of the source. What is behind the end counts as the end. -/
def sourceOffset (source : String) (offset : Nat) : Nat :=
  min offset source.utf8ByteSize

def sourceColumn (source : String) (offset : Nat) : Nat :=
  columnAfter (Text.slice source 0 (sourceOffset source offset)).toList

def addName (names : List String) (name : String) : List String :=
  if names.contains name then names else names ++ [name]

def namesOf (mappings : List Mapping) : List String :=
  (mappings.filterMap Mapping.name).foldl addName []

def segment (source : String) (names : List String) (m : Mapping) : Segment :=
  { column := m.place.column
    sourceLine := m.source.line - 1
    sourceColumn := sourceColumn source m.source.offset
    name := m.name.bind names.idxOf? }

/-- Of segments that follow each other at one column only the last counts. -/
def lastAtColumn : List Segment → List Segment
  | s :: t :: rest =>
    if s.column == t.column then lastAtColumn (t :: rest) else s :: lastAtColumn (t :: rest)
  | rest => rest

def lineSegments (source : String) (names : List String) (mappings : List Mapping) (line : Nat) :
    List Segment :=
  lastAtColumn ((mappings.filter fun m => m.place.line == line).map (segment source names))

/-- The number of lines of the code up to the last mapping. -/
def lineCount (mappings : List Mapping) : Nat :=
  mappings.foldl (fun n m => max n (m.place.line + 1)) 0

def segments (source : String) (mappings : List Mapping) : List (List Segment) :=
  (List.range (lineCount mappings)).map
    (lineSegments source (namesOf mappings) mappings)

/-! ## Numbers -/

def digits : List Char :=
  "ABCDEFGHIJKLMNOPQRSTUVWXYZabcdefghijklmnopqrstuvwxyz0123456789+/".toList

def digit (n : Nat) : Char :=
  digits.getD n 'A'

/-- A number in digits of five bits, the lowest first; all digits but the last have a sixth bit. -/
def encodeNat (n : Nat) : List Char :=
  if n < 32 then [digit n] else digit (n % 32 + 32) :: encodeNat (n / 32)
termination_by n
decreasing_by omega

def encodeInt (n : Int) : List Char :=
  encodeNat (if n < 0 then 2 * n.natAbs + 1 else 2 * n.natAbs)

/-! ## Mappings -/

/-- The numbers that the next segment is written against. -/
structure Origin where
  column : Int
  sourceLine : Int
  sourceColumn : Int
  name : Int
  deriving DecidableEq, Repr

def Origin.after (o : Origin) (s : Segment) : Origin :=
  ⟨s.column, s.sourceLine, s.sourceColumn, (s.name.map Int.ofNat).getD o.name⟩

def encodeSegment (o : Origin) (s : Segment) : List Char :=
  encodeInt (s.column - o.column) ++ encodeInt 0 ++ encodeInt (s.sourceLine - o.sourceLine)
    ++ encodeInt (s.sourceColumn - o.sourceColumn)
    ++ (s.name.map fun (n : Nat) => encodeInt (n - o.name)).getD []

/-- The text of the segments of a line, and what the next segment is written against. -/
def encodeLine (o : Origin) : List Segment → List Char × Origin
  | [] => ([], o)
  | [s] => (encodeSegment o s, o.after s)
  | s :: rest =>
    let (text, next) := encodeLine (o.after s) rest
    (encodeSegment o s ++ ',' :: text, next)

def encodeLines (o : Origin) : List (List Segment) → List Char
  | [] => []
  | [line] => (encodeLine { o with column := 0 } line).1
  | line :: rest =>
    let (text, next) := encodeLine { o with column := 0 } line
    text ++ ';' :: encodeLines next rest

/-- Whether a mapping leads to a place between two characters of the source. -/
def isBetweenCharacters (source : String) (m : Mapping) : Bool :=
  Text.isBoundary source (sourceOffset source m.source.offset)

def ofMappings (file source : String) (mappings : List Mapping) : Except Text.CutFault SourceMap :=
  if mappings.all (isBetweenCharacters source) then
    .ok
      { file
        source
        names := namesOf mappings
        mappings := String.ofList (encodeLines ⟨0, 0, 0, 0⟩ (segments source mappings)) }
  else .error .insideCharacter

def toJson (m : SourceMap) : String :=
  "\x7b\"version\":3,\"file\":" ++ Text.quote m.file
    ++ ",\"sources\":" ++ Text.quoteList [m.file]
    ++ ",\"sourcesContent\":" ++ Text.quoteList [m.source]
    ++ ",\"names\":" ++ Text.quoteList m.names
    ++ ",\"mappings\":" ++ Text.quote m.mappings ++ "\x7d"

end SourceMap

end JsxTemplate
