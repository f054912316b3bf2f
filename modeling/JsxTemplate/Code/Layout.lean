import JsxTemplate.Code.Fragment

/-!
# The text of code

Fragments are put together to a text. Alongside, the places of the text are noted where a fragment that
comes from the template starts or ends (`Mapping`).
-/

namespace JsxTemplate

/-- A place in a text: the line, and the number of UTF-16 units before it on the line. -/
structure TextPlace where
  line : Nat
  column : Nat
  deriving DecidableEq, Repr

namespace TextPlace

def step (p : TextPlace) (c : Char) : TextPlace :=
  if c == '\n' then ⟨p.line + 1, 0⟩ else ⟨p.line, p.column + Text.unitLength [c]⟩

def advance (p : TextPlace) (cs : List Char) : TextPlace :=
  cs.foldl step p

end TextPlace

/-- A place of the code that comes from a place of the template. -/
structure Mapping where
  place : TextPlace
  source : Position
  /-- The name that stands there in the template, if it was replaced. -/
  name : Option String
  deriving DecidableEq, Repr

namespace Fragment

def depthAfter (depth : Nat) : Fragment → Nat
  | .indent => depth + 1
  | .dedent => depth - 1
  | _ => depth

def chars (depth : Nat) : Fragment → List Char
  | .newline => '\n' :: List.replicate (2 * depth) ' '
  | .indent | .dedent => []
  | .code text => text.toList
  | .mapped text _ _ => text.toList

/-- The places where a fragment starts and ends, if it comes from the template. -/
def mappings (start stop : TextPlace) : Fragment → List Mapping
  | .mapped _ loc name =>
    if loc.isStub then [] else [⟨start, loc.start, name⟩, ⟨stop, loc.stop, none⟩]
  | _ => []

end Fragment

namespace Code

def chars (depth : Nat) : Code → List Char
  | [] => []
  | f :: fs => f.chars depth ++ chars (f.depthAfter depth) fs

def render (code : Code) : String :=
  String.ofList (code.chars 0)

/-- The places that come from the template, in code that starts at a place and a depth of
indentation. -/
def mappingsFrom (depth : Nat) (place : TextPlace) : Code → List Mapping
  | [] => []
  | f :: fs =>
    let next := place.advance (f.chars depth)
    f.mappings place next ++ mappingsFrom (f.depthAfter depth) next fs

def mappings (code : Code) : List Mapping :=
  mappingsFrom 0 ⟨0, 0⟩ code

end Code

end JsxTemplate
