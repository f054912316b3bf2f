import JsxTemplate.Script.Reader

/-!
# Free variables

The variables that a script refers to and does not introduce itself, in the order of the source. Every
name that a function introduces anywhere inside it counts as introduced in all of it.
-/

namespace JsxTemplate.Script

structure Reference where
  name : String
  start : Nat
  stop : Nat
  /-- Whether the name stands alone for a property of that name and its value. -/
  shorthand : Bool
  deriving DecidableEq, Repr, Inhabited

namespace Tree

/-- The reference to a variable, unless it is among the introduced ones. -/
def referenceTo (introduced : List String) (name : String) (span : Span) (shorthand : Bool) :
    List Reference :=
  if introduced.contains name then [] else [⟨name, span.start, span.stop, shorthand⟩]

mutual

/-- The references of a tree to variables that are not among the introduced ones. -/
def references (introduced : List String) : Tree → List Reference
  | .node kind span cs =>
    match kind with
    | .reference name => referenceTo introduced name span false
    | .property .shorthand _ =>
      match cs with
      | [_, .node (.reference name) span _] => referenceTo introduced name span true
      | cs => referencesOf introduced cs
    | .arrow | .function => referencesOf ((Tree.node kind span cs).bindings ++ introduced) cs
    | _ => referencesOf introduced cs

def referencesOf (introduced : List String) : List Tree → List Reference
  | [] => []
  | t :: ts => references introduced t ++ referencesOf introduced ts

end

end Tree

/-- The free variables of a script, which is an expression or a list of statements. There is no result
if it is neither. -/
def references? (script : String) : Option (List Reference) :=
  let tree := (readWhole script).or (readStatements script)
  tree.map fun t => (t.references []).mergeSort fun a b => a.start ≤ b.start

def refersTo (isLocal : String → Bool) (script : String) : Bool :=
  (references? script).any fun rs => rs.any fun r => isLocal r.name

end JsxTemplate.Script
