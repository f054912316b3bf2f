import JsxTemplate.Loop.Head
import JsxTemplate.Text.Letter
import JsxTemplate.Text.Quoted

/-!
# The names that an item of a loop introduces

The pattern of an item introduces names, each of which is found in the item by a path. Two kinds of
patterns need more than a path: what remains of an object without some of its properties, and a value
with a default.
-/

namespace JsxTemplate

/-- What a name needs besides the path to its value. -/
inductive LoopHelper where
  /-- The value is an object without the properties of a list, which is written as a literal. -/
  | rest (excluded : String)
  | default (value : String)
  deriving DecidableEq, Repr, Inhabited

structure LoopBinding where
  name : String
  /-- The path from the item to its value, as it is written behind the item. -/
  path : String
  helper : Option LoopHelper
  deriving DecidableEq, Repr, Inhabited

namespace LoopBinding

def textOf (script : String) (t : Script.Tree) : String :=
  Text.slice script t.span.start t.span.stop

/-- The step of a path to a property, and the key of the property as a literal. -/
def stepTo (script : String) (computed : Bool) (key : Script.Tree) : String × String :=
  match key.kind with
  | .string value => ("[" ++ Text.quote value ++ "]", Text.quote value)
  | .name text =>
    if computed then ("[" ++ textOf script key ++ "]", textOf script key)
    else ("." ++ text, Text.quote text)
  | _ => ("[" ++ textOf script key ++ "]", textOf script key)

mutual

/-- The names that a pattern introduces, if its value is found by `path` and needs `helper`. -/
def ofPattern (script : String) (path : String) (helper : Option LoopHelper) :
    Script.Tree → List LoopBinding
  | .node (.binding name) _ _ => [⟨name, path, helper⟩]
  | .node .objectPattern _ properties => ofProperties script path helper [] properties
  | .node .arrayPattern _ elements => ofElements script path helper 0 elements
  | .node .withDefault _ [pattern, value] =>
    ofPattern script path (some (.default (textOf script value))) pattern
  | _ => []

/-- The names that the properties of a pattern introduce; `keys` are those of the properties before
them. -/
def ofProperties (script : String) (path : String) (helper : Option LoopHelper)
    (keys : List String) : List Script.Tree → List LoopBinding
  | [] => []
  | .node (.patternProperty computed) _ [key, value] :: ps =>
    let (step, literal) := stepTo script computed key
    ofPattern script (path ++ step) helper value
      ++ ofProperties script path helper (keys ++ [literal]) ps
  | .node .rest _ [pattern] :: ps =>
    ofPattern script path (some (.rest ("[" ++ ", ".intercalate keys ++ "]"))) pattern
      ++ ofProperties script path helper keys ps
  | _ :: ps => ofProperties script path helper keys ps

/-- The names that the elements of a pattern introduce, the first of which has the given index. -/
def ofElements (script : String) (path : String) (helper : Option LoopHelper) (index : Nat) :
    List Script.Tree → List LoopBinding
  | [] => []
  | .node .elision _ _ :: es => ofElements script path helper (index + 1) es
  | .node .rest _ [pattern] :: es =>
    ofPattern script (path ++ ".slice(" ++ toString index ++ ")") helper pattern
      ++ ofElements script path helper index es
  | e :: es =>
    ofPattern script (path ++ "[" ++ toString index ++ "]") helper e
      ++ ofElements script path helper (index + 1) es

end

/-- The names that the pattern of an item introduces. A plain name introduces itself. -/
def ofItem (pattern : String) : List LoopBinding :=
  let pattern := Text.trim pattern
  if Text.isPlainName pattern then [⟨pattern, "", none⟩]
  else
    let script := LoopHead.wrap pattern
    match Script.readWhole script with
    | some (.node .arrow _ parts) =>
      let params := (parts.find? fun p => p.kind == .params).toList.flatMap Script.Tree.children
      match params.find? fun p => p.kind == .param with
      | some (.node _ _ (p :: _)) => ofPattern script "" none p
      | _ => []
    | _ => []

end LoopBinding

namespace LoopHead

def nameOf (part : Option Expression) : Option String :=
  part.map fun e => Text.trim e.content

/-- The names that the pattern of an item introduces, with the ways to their values. -/
def itemBindings (head : LoopHead) : List LoopBinding :=
  (head.value.map fun e => LoopBinding.ofItem e.content).getD []

def names (head : LoopHead) : List String :=
  head.itemBindings.map LoopBinding.name ++ (nameOf head.key).toList ++ (nameOf head.index).toList

end LoopHead

end JsxTemplate
