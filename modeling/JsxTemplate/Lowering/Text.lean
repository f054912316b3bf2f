import JsxTemplate.Html.Escape
import JsxTemplate.Lowering.Step
import JsxTemplate.Script.Shape

/-!
# Texts and expressions

A text becomes markup. An expression belongs to a group of texts and expressions that stand side by
side: the values of the group are rendered together. If an element holds nothing else, they are the
text inside it; otherwise they are nodes that are inserted.

A text or expression that belongs to the group of another one is marked as seen.
-/

namespace JsxTemplate.Lower

/-- The purpose for which texts and expressions are marked as seen. -/
def textPurpose : String := "text"

def groupValue? : Visited → Option Expression
  | .node _ (.text content loc) => some ⟨content, true, loc⟩
  | .node _ (.expression e _ _) => if e.isEmpty then none else some e
  | _ => none

def markAllSeen : List Visited → Lower Unit
  | [] => return ()
  | v :: vs => do
    let _ ← markSeen v.path textPurpose
    markAllSeen vs

/-- The values of a group, whose nodes are marked as seen. -/
def groupValues (nodes : List Visited) : Lower (List Expression) := do
  markAllSeen nodes
  return nodes.filterMap groupValue?

def nestedRoots (nodes : List Visited) : List Visited :=
  nodes.flatMap fun v =>
    match v with
    | .node path (.expression _ roots _) =>
      roots.zipIdx.map fun r => .node (r.2 :: path) r.1.asFragment
    | _ => []

/-- Lower the elements inside expressions, each to a block. The argument `visit` lowers the current
node. -/
def nestedBlocks (visit : Lower Unit) : List Visited → Lower (List NestedBlock)
  | [] => return []
  | root :: roots => do
    pushFrame root 0
    enterBlock root.loc false
    visit
    let block ← exitBlock
    let _ ← popFrame
    if ← isAborted then return []
    let rest ← nestedBlocks visit roots
    return ⟨root.loc.start.offset, root.loc.stop.offset, block⟩ :: rest

/-- What is to be done for texts and expressions once the elements inside the expressions are lowered. -/
inductive TextWork where
  | done
  | container (element : Nat) (values : List Expression) (roots : List Visited)
  | expression (id : Nat) (values : List Expression) (roots : List Visited)

def TextWork.roots : TextWork → List Visited
  | .done => []
  | .container _ _ roots | .expression _ _ roots => roots

/-- Do what is to be done with the blocks of the elements. -/
def finishText : TextWork → List NestedBlock → Lower Unit
  | .done, _ => return ()
  | .container element values _, blocks => do
    let once ← inOnce
    addOperation (.setNodes element values blocks once false)
  | .expression id values _, blocks => do
    let once ← inOnce
    modifyPlan fun p => { p with operation := some (.createNodes id values blocks once none) }

/-- The children of an element that holds only texts and expressions. -/
def prepareContainer (children : List Visited) : Lower TextWork := do
  let values ← groupValues children
  if values.any fun v => !v.isStatic && Script.containsElement v.content then
    setChildTemplates []
    let element ← reference
    return .container element values (nestedRoots children)
  else
    match values.mapM Expression.literal? with
    | some literals =>
      setChildTemplates (literals.map Html.escapeText)
      return .done
    | none =>
      setChildTemplates [" "]
      let parent ← reference
      addOperation (.getTextChild parent)
      addEffect values (.setText parent values true)
      return .done

/-- The group of an expression: the text before it, and all texts and expressions from it on. -/
def groupAt (siblings : List Visited) (index : Nat) : List Visited :=
  let before := if index == 0 then [] else (siblings[index - 1]?).toList.filter Visited.isText
  before ++ (siblings.drop index).takeWhile Visited.isTextLike

def prepareExpression : Lower TextWork := do
  match ← parentNode with
  | none => return .done
  | some parent =>
    let group := groupAt parent.children (← index)
    let values ← groupValues group
    if values.isEmpty then
      modifyPlan fun p => { p with nonTemplate := true }
      return .done
    else
      let id ← reference
      modifyPlan fun p => { p with insert := true, nonTemplate := true }
      return .expression id values (nestedRoots group)

def textsBeforeExpressions : List Visited → List Visited
  | a :: b :: rest =>
    (if a.isText && b.isExpression then [a] else []) ++ textsBeforeExpressions (b :: rest)
  | _ => []

def prepareChildren (v : Visited) : Lower TextWork := do
  if v.children.any Visited.isExpression then
    let isNative := v.tag?.any fun tag => tag.type == .element
    if isNative && v.children.all Visited.isTextLike then prepareContainer v.children
    else
      markAllSeen (textsBeforeExpressions v.children)
      return .done
  else return .done

def prepareText : Lower TextWork := do
  match ← node with
  | none => return .done
  | some v =>
    if ← isSeen v.path textPurpose then
      modifyPlan fun p => { p with nonTemplate := true }
      return .done
    match v with
    | .node _ (.text content _) =>
      modifyFrame fun f => { f with template := f.template ++ Html.escapeText content }
      return .done
    | .node _ (.expression _ _ _) => prepareExpression
    | .wrapped _ _ _ => return .done
    | v => prepareChildren v

/-- The elements inside expressions are lowered in the middle of the step. -/
def runText (visit : Lower Unit) (work : Lower TextWork) : Lower Unit := do
  let work ← work
  let blocks ← nestedBlocks visit work.roots
  finishText work blocks

def textStep (visit : Lower Unit) : Lower (List Exit) := do
  runText visit prepareText
  return []

end JsxTemplate.Lower
