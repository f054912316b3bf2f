import JsxTemplate.Script.Reader.Jsx
import JsxTemplate.Script.Reader.Statement
import JsxTemplate.Text.Blank

/-!
# Reading scripts

The rules of the language are tied together with a bound on how deeply they call each other. The bound
is taken from the length of the script, so that it is never the reason for a failure.
-/

namespace JsxTemplate.Script

/-- The rules of the language, which call each other at most `n` deep. -/
def grammar : Nat → Grammar
  | 0 =>
    { expression := Reader.fail
      assignment := fun _ => Reader.fail
      operation := fun _ => Reader.fail
      operand := Reader.fail
      pattern := Reader.fail
      type := Reader.fail
      statement := Reader.fail
      element := fun _ => Reader.fail }
  | n + 1 =>
    { expression := fun s => Reader.expression (grammar n) s
      assignment := fun allowResult s => Reader.assignment (grammar n) allowResult s
      operation := fun least s => Reader.operation (grammar n) least s
      operand := fun s => Reader.operand (grammar n) s
      pattern := fun s => Reader.pattern (grammar n) s
      type := fun s => Reader.type (grammar n) s
      statement := fun s => Reader.statement (grammar n) s
      element := fun inChild s => Reader.element (grammar n) inChild s }

def ReaderState.ofInput (script : Input) : ReaderState :=
  { here := script
    rest := script
    token := .eof
    newLine := false
    lastStop := 0
    faulty := false
    openDefaults := []
    notArrows := []
    around := .outermost
    bound := script.chars.length + 2 }

/-- Apply a rule to a script. There is no result if a mistake was met on the way. -/
def readWith (rule : Grammar → Reader Tree) (script : Input) : Option Tree :=
  let state := ReaderState.ofInput script
  let read := do
    Reader.advance
    rule (grammar (8 * state.bound))
  match read state with
  | some (tree, s) => if s.faulty || !s.openDefaults.isEmpty then none else some tree
  | none => none

/-- Read one expression at the front of a script. What follows it is ignored, but must start with a
token. -/
def readExpression (script : String) : Option Tree :=
  readWith Grammar.expression ⟨script.toList, 0⟩

/-- Read a script that is one expression, from its start to its last character that is not blank. -/
def readWhole (script : String) : Option Tree :=
  (readExpression script).filter fun tree =>
    Text.byteLength (Text.trimRight script.toList) ≤ tree.span.stop

/-- The part of a script behind a first line that names its interpreter. -/
def behindInterpreter (script : String) : Input :=
  match script.toList with
  | '#' :: '!' :: cs =>
    let line := cs.takeWhile fun c => !endsLine c
    ⟨cs.drop line.length, 2 + Text.byteLength line⟩
  | cs => ⟨cs, 0⟩

def readStatements (script : String) : Option Tree :=
  behindInterpreter script |> readWith fun g => do
    let start ← Reader.start
    let statements ← Reader.collect do
      if (← Reader.token) == .eof then return none else return some (← g.statement)
    Reader.finish .group start statements

end JsxTemplate.Script
