import JsxTemplate.Script.Reader.Basic

/-!
# Reading names, keys and patterns
-/

namespace JsxTemplate.Script.Reader

def variableName : Reader String := do
  match ← token with
  | .word w =>
    if isReservedWord w then fail
    let around := (← get).around
    faultIf ((w == "await" && around.inAsync) || (w == "yield" && around.inGenerator))
    advance
    return w
  | _ => fail

/-- Whether the current token can be the name of a variable. -/
def isVariable : Reader Bool := do
  match ← token with
  | .word w => return !isReservedWord w
  | _ => return false

def reference : Reader Tree := do
  let start ← start
  let name ← variableName
  finish (.reference name) start []

/-- A variable that is introduced. -/
def binding : Reader Tree := do
  let start ← start
  let name ← variableName
  finish (.binding name) start []

def plainName : Reader Tree := do
  match ← token with
  | .word w => leaf (.name w)
  | _ => fail

/-- Whether the current token can start the key of a property. -/
def startsKey : Reader Bool := do
  match ← token with
  | .word _ | .string _ | .number | .bigint | .privateWord | .mark "[" => return true
  | _ => return false

/-- An expression without commas in which `in` is an operator. -/
def insideBrackets (g : Grammar) : Reader Tree :=
  within (fun a => { a with allowIn := true }) (g.assignment true)

/-- The key of a property, and whether it is computed. -/
def key (g : Grammar) : Reader (Tree × Bool) := do
  match ← token with
  | .word w => return (← leaf (.name w), false)
  | .string v => return (← leaf (.string v), false)
  | .number => return (← leaf .number, false)
  | .bigint => return (← leaf .bigint, false)
  | .mark "[" =>
    advance
    let e ← insideBrackets g
    expectMark "]"
    return (e, true)
  | _ => fail

/-- A default value behind a pattern that started at `start`, if there is one. -/
def defaultBehind (g : Grammar) (start : Nat) (pattern : Tree) : Reader Tree := do
  if ← eatMark "=" then
    let value ← insideBrackets g
    finish .withDefault start [pattern, value]
  else return pattern

/-- A pattern that may have a default value. -/
def patternElement (g : Grammar) : Reader Tree := do
  let start ← start
  let pattern ← g.pattern
  defaultBehind g start pattern

/-- The pattern of what remains, which must be the last one. -/
def restElement (g : Grammar) : Reader Tree := do
  let start ← start
  expectMark "..."
  let pattern ← g.pattern
  let tree ← finish .rest start [pattern]
  faultIf (← isMark ",")
  return tree

def patternProperty (g : Grammar) : Reader Tree := do
  let start ← start
  if ← isMark "..." then restElement g
  else
    let (k, computed) ← key g
    if ← eatMark ":" then
      let value ← patternElement g
      finish (.patternProperty computed) start [k, value]
    else
      match k with
      | .node (.name n) span [] =>
        if isReservedWord n then fail
        let around := (← get).around
        faultIf ((n == "await" && around.inAsync) || (n == "yield" && around.inGenerator))
        let value ← defaultBehind g start (.node (.binding n) span [])
        finish (.patternProperty false) start [k, value]
      | _ => fail

def arrayPatternElement (g : Grammar) : Reader Tree := do
  let start ← start
  if ← isMark "," then return .node .elision ⟨start, start⟩ []
  else if ← isMark "..." then restElement g
  else patternElement g

/-- A pattern: a variable, or properties, or elements. -/
def pattern (g : Grammar) : Reader Tree := do
  let start ← start
  match ← token with
  | .mark "[" =>
    let elements ← bracketed "[" "]" (arrayPatternElement g)
    finish .arrayPattern start elements
  | .mark "\x7b" =>
    let properties ← bracketed "\x7b" "\x7d" (patternProperty g)
    finish .objectPattern start properties
  | _ => binding

end JsxTemplate.Script.Reader
