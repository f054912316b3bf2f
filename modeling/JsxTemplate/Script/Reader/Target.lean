import JsxTemplate.Script.Reader.Basic

/-!
# What can be assigned to

The left side of an assignment is first read as an expression. If it can be assigned to, it becomes a
`place`, in which object and array literals have turned into patterns.
-/

namespace JsxTemplate.Script

namespace Tree

/-- Whether an expression is a variable or a property, also behind parentheses and marks for the type
checker. -/
def isSimpleTarget : Tree → Bool
  | .node (.reference _) _ _ => true
  | .node .member _ _ => true
  | .node .paren _ [inner] => inner.isSimpleTarget
  | .node .typed _ (inner :: _) => inner.isSimpleTarget
  | _ => false

/-- A variable or a property that is assigned to. -/
def simpleTarget? (t : Tree) : Option Tree :=
  if t.isSimpleTarget then some (.node .place t.span [t]) else none

mutual

def target? : Tree → Option Tree
  | .node .object span properties =>
    (propertyTargets? properties).map fun ts => .node .place span ts
  | .node .array span elements =>
    (elementTargets? elements).map fun ts => .node .place span ts
  | t => t.simpleTarget?

/-- What an assignment to elements assigns to. What remains can only be assigned in the end. -/
def elementTargets? : List Tree → Option (List Tree)
  | [] => some []
  | .node .elision span cs :: ts => (elementTargets? ts).map (.node .elision span cs :: ·)
  | [.node .spread span [t]] => (target? t).map fun t => [.node .group span [t]]
  | .node .spread _ _ :: _ => none
  | .node (.assignment "=") span cs :: ts => (elementTargets? ts).map (.node .group span cs :: ·)
  | t :: ts => do
    let t ← target? t
    let ts ← elementTargets? ts
    return t :: ts

def propertyTargets? : List Tree → Option (List Tree)
  | [] => some []
  | [.node .spread span [t]] => (target? t).map fun t => [.node .group span [t]]
  | .node (.property .shorthand _) span (_ :: cs) :: ts =>
    (propertyTargets? ts).map (.node .group span cs :: ·)
  | .node (.property .plain _) span [key, .node (.assignment "=") s cs] :: ts =>
    (propertyTargets? ts).map (.node .group span [key, .node .group s cs] :: ·)
  | .node (.property .plain _) span [key, value] :: ts => do
    let value ← target? value
    let ts ← propertyTargets? ts
    return .node .group span [key, value] :: ts
  | _ => none

end

mutual

/-- Where the defaults stand in an object or array literal that is read as a pattern. -/
def patternDefaults : Tree → List Nat
  | .node .object _ cs => patternDefaultsOf cs
  | .node .array _ cs => patternDefaultsOf cs
  | _ => []

def patternDefaultsOf : List Tree → List Nat
  | [] => []
  | .node (.property .shorthand _) span [_, _, _] :: ts => span.start :: patternDefaultsOf ts
  | .node (.property .plain _) _ [_, value] :: ts => patternDefaults value ++ patternDefaultsOf ts
  | .node .spread _ [t] :: ts => patternDefaults t ++ patternDefaultsOf ts
  | t :: ts => patternDefaults t ++ patternDefaultsOf ts

end

end Tree

namespace Reader

/-- Turn an expression into what is assigned to. A literal that becomes a pattern may hold defaults. -/
def asTarget (t : Tree) : Reader Tree := do
  let place ← t.target?
  let defaults := t.patternDefaults
  modify fun s => { s with openDefaults := s.openDefaults.filter fun o => !defaults.contains o }
  return place

/-- Turn an expression into a variable or a property that is assigned to. -/
def asSimpleTarget (t : Tree) : Reader Tree := do
  t.simpleTarget?

end Reader

end JsxTemplate.Script
