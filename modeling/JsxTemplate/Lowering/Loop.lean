import JsxTemplate.Loop.Binding
import JsxTemplate.Lowering.Step

/-!
# Loops

An element with a loop is wrapped, and its block is rendered for each item.
-/

namespace JsxTemplate

def rendersComponent (tag : Tag) (children : List Node) : Bool :=
  match tag.type, children with
  | .component, _ => true
  | .template, [.element child _] => child.isComponent
  | _, _ => false

def isElementWithSingleChild : Visited → Bool
  | .node _ (.element tag children) => tag.type == .element && children.length == 1
  | _ => false

namespace Lower

def loopHead (d : Directive) : Lower (Option LoopHead) := do
  match d.exp with
  | none =>
    report .forNoExpression (some d.loc)
    return none
  | some e =>
    match LoopHead.ofExpression e with
    | .ok (some head) => return some head
    | .ok none =>
      report .forMalformed (some d.loc)
      return none
    | .error fault =>
      modify fun c => { c with fault := some fault }
      return none

def enterLoop (path : Path) (tag : Tag) (children : List Node) (head : LoopHead) :
    Lower (List Exit) := do
  replaceNode (.wrapped path tag children)
  modifyPlan fun p => { p with nonTemplate := true, insert := true }
  let id ← reference
  enterBlock tag.loc true
  let _ ← reference
  let scope ← pushScope head.names
  let keyProperty := (tag.find? "key").bind Attribute.value
  return [.loop id head keyProperty (rendersComponent tag children) scope]

def loopStep : Lower (List Exit) := do
  match ← node with
  | some (.node path (.element tag children)) =>
    match tag.directive? "for" with
    | none => return []
    | some d =>
      if tag.isTemplateSlot then return []
      if !(← markSeen path "for") then return []
      match ← loopHead d with
      | none => return []
      | some head => enterLoop path tag children head
  | _ => return []

def isOnlyChild : Lower Bool := do return (← parentNode).any isElementWithSingleChild

def setLoop (id : Nat) (head : LoopHead) (keyProperty : Option Expression) (component : Bool)
    (render : Block) : Lower Unit := do
  let onlyChild ← isOnlyChild
  let once := (← inOnce) || head.source.isConstant
  let plan : LoopPlan := { id, head, keyProperty, render, once, component, onlyChild }
  modifyPlan fun p => { p with operation := some (.loop plan none) }

def exitLoop (id : Nat) (head : LoopHead) (keyProperty : Option Expression) (component : Bool)
    (scope : Nat) : Lower Unit := do
  let render ← exitBlock
  popScope scope
  setLoop id head keyProperty component render

def referenceStep : Lower (List Exit) := do
  match ← node with
  | some (.node _ (.element tag _)) =>
    match ((tag.find? "ref").bind Attribute.value).filter fun e => e.isStatic || !e.isEmpty with
    | none => return []
    | some value =>
      modify fun c => { c with hasReference := true }
      return [.reference value]
  | _ => return []

def exitReference (value : Expression) : Lower Unit := do
  let id ← reference
  let effect := !value.isConstant
  if effect then addOperation (.declareReference id)
  let inLoop := (← get).loopDepth != 0
  addEffect [value] (.setReference id value inLoop effect)

def onceStep : Lower (List Exit) := do
  match ← node with
  | some (.node _ (.element tag _)) =>
    if tag.hasDirective ["once"] then setOnce
    return []
  | _ => return []

end Lower

end JsxTemplate
