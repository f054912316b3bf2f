import JsxTemplate.Script.Constant
import JsxTemplate.Text.Letter

/-!
# The shape of an expression

What an expression is at its top: something that can be assigned to, a function, or something with
elements inside it.
-/

namespace JsxTemplate.Script

/-- Whether a script is a variable or a property of an object. -/
def isMember (script : String) : Bool :=
  let script := Text.trim script
  if Text.isPlainName script then script != "undefined"
  else
    (readWhole script).any fun t =>
      match t.unwrapped.kind with
      | .reference _ | .member => true
      | _ => false

def isFunction (script : String) : Bool :=
  (readWhole (Text.trim script)).any fun t =>
    match t.unwrapped.kind with
    | .arrow | .function => true
    | _ => false

def Kind.isElement : Kind → Bool
  | .jsxElement _ _ | .jsxFragment => true
  | _ => false

def containsElement (script : String) : Bool :=
  script.toList.contains '<' && (readWhole script).any fun t => t.nodes.any (·.kind.isElement)

end JsxTemplate.Script
