import JsxTemplate.Position
import JsxTemplate.Text.Blank

/-!
# Expressions of a template

An expression is kept as the text the author wrote together with its place. A static expression is a
plain string: the value of an attribute in quotes, or a name.
-/

namespace JsxTemplate

/-- A piece of script text, or a plain string, with its place in the source. -/
structure Expression where
  content : String
  /-- Whether it is a plain string rather than script. -/
  isStatic : Bool
  loc : Location
  deriving DecidableEq, Repr, Inhabited

namespace Expression

def ofString (content : String) : Expression := ⟨content, true, .stub⟩

/-- A piece of script that stands nowhere in the source. -/
def ofScript (content : String) : Expression := ⟨content, false, .stub⟩

def isEmpty (e : Expression) : Bool :=
  Text.isEmptyOrBlank e.content

/-- The location of the bytes from `start` up to `stop` of an expression, found by walking over it
from its own place. A plain string and an expression without a place have no such location. -/
def subLocation (e : Expression) (start stop : Nat) : Location :=
  if e.loc.isStub || e.isStatic then .stub
  else
    let walk := e.loc.start.advance e.content.toList
    ⟨walk start, walk stop, Text.slice e.content start stop⟩

/-- The piece of an expression from byte `start` up to byte `stop`, with its place. -/
def sub (e : Expression) (start stop : Nat) : Expression :=
  ⟨Text.slice e.content start stop, false, e.subLocation start stop⟩

end Expression

end JsxTemplate
