import JsxTemplate.Lowering.Loop

/-!
# Slots

The children of a component are its default slot, apart from those that are templates for slots of
their own. A slot whose presence depends on a condition or a loop is a dynamic one.
-/

namespace JsxTemplate

namespace DynamicSlot

/-- Attach what is rendered otherwise to the last condition. -/
def attach (otherwise : DynamicSlot) : DynamicSlot → DynamicSlot
  | .conditional c positive (some (.conditional c' p' n')) =>
    .conditional c positive (some (attach otherwise (.conditional c' p' n')))
  | .conditional c positive _ => .conditional c positive (some otherwise)
  | slot => slot

end DynamicSlot

namespace SlotGroup

def hasSlot (slots : List SlotGroup) (name : String) : Bool :=
  slots.any fun
    | .fixed named => named.any fun s => s.name == name
    | _ => false

/-- Add a slot of a known name to the last group, or to a new one. -/
def addNamed (slots : List SlotGroup) (slot : NamedSlot) : List SlotGroup :=
  match slots.getLast? with
  | some (.fixed named) => slots.dropLast ++ [.fixed (named ++ [slot])]
  | _ => slots ++ [.fixed [slot]]

def add (slots : List SlotGroup) (name : Option Expression) (body : SlotBody) : List SlotGroup :=
  match name with
  | none => addNamed slots ⟨"default", body⟩
  | some name =>
    if name.isStatic then addNamed slots ⟨name.content, body⟩
    else slots ++ [.dynamic (.single name body)]

/-- Add what is rendered if the condition of the last slot does not hold. There is no result if the last
slot has no condition. -/
def attach? (slots : List SlotGroup) (otherwise : DynamicSlot) : Option (List SlotGroup) :=
  match slots.getLast? with
  | some (.dynamic (.conditional c positive negative)) =>
    some (slots.dropLast ++
      [.dynamic (DynamicSlot.attach otherwise (.conditional c positive negative))])
  | _ => none

/-- Add the slot of a template, with the directives that decide on its presence. The result may be a
mistake instead. -/
def addTemplate (slots : List SlotGroup) (slot : Directive) (body : SlotBody)
    (condition otherwise loop : Option Directive) (head : Option LoopHead) :
    Except Diagnostic (List SlotGroup) :=
  let single := DynamicSlot.single (slot.arg.getD (.ofString "default")) body
  match condition, otherwise, loop with
  | some c, _, _ =>
    .ok (slots ++ [.dynamic (.conditional (c.exp.getD ⟨"true", false, c.loc⟩) single none)])
  | none, some e, _ =>
    let added := match e.exp with
      | some condition => if e.name == "else-if" then .conditional condition single none else single
      | none => single
    match attach? slots added with
    | some slots => .ok slots
    | none => .error ⟨.elseNoAdjacentIf, some e.loc⟩
  | none, none, some _ =>
    match head with
    | some head => .ok (slots ++ [.dynamic (.loop (slot.arg.getD (.ofString "default")) body head)])
    | none => .ok slots
  | none, none, none =>
    let known := match slot.arg with
      | none => some "default"
      | some name => if name.isStatic then some name.content else none
    if known.any (hasSlot slots) then .error ⟨.duplicateSlotNames, some slot.loc⟩
    else .ok (add slots slot.arg body)

end SlotGroup

def slotVariables (pattern : Option Expression) : List String :=
  pattern.toList.flatMap fun p => (LoopBinding.ofItem p.content).map LoopBinding.name

def isDefaultSlot (name : Option Expression) : Bool :=
  match name with
  | none => true
  | some name => name.isStatic && name.content == "default"

def isSlotChild : Node → Bool
  | .element tag _ => tag.hasDirective ["slot"]
  | _ => false

/-- Whether a template for a slot leaves no room for children beside it: the component says itself what
its slot is, or the template is always the default slot. -/
def excludesOthers (onComponent : Bool) : Node → Bool
  | .element tag _ =>
    tag.type == .template && (tag.directive? "slot").any fun d =>
      onComponent || (!tag.hasDirective ["if", "else-if", "else", "for"] && isDefaultSlot d.arg)
  | _ => false

namespace Lower

def enterComponentSlots (tag : Tag) (children : List Node) (d : Option Directive) :
    Lower (List Exit) := do
  let firstOther := (children.find? fun c => !isSlotChild c).map Node.loc
  let pattern := d.bind Directive.exp
  let scope ← pushScope (slotVariables pattern)
  enterBlock tag.loc false
  if firstOther.isSome && children.any (excludesOthers d.isSome) then discardTemplates
  return [.componentSlots d pattern firstOther scope]

/-- Give the slots that were found below a component to it, with what else stands in it. -/
def setComponentSlots (d : Option Directive) (pattern : Option Expression)
    (firstOther : Option Location) (slots : List SlotGroup) (block : Block) : Lower Unit := do
  match d, slots.isEmpty with
  | some d, false => report .mixedSlotUsage (some d.loc)
  | d, _ =>
    match firstOther with
    | none => addSlots slots
    | some loc =>
      if SlotGroup.hasSlot slots "default" then
        report .extraneousDefaultSlotChildren (some loc)
        addSlots slots
      else addSlots (SlotGroup.add slots (d.bind Directive.arg) ⟨block, pattern⟩)

def exitComponentSlots (d : Option Directive) (pattern : Option Expression)
    (firstOther : Option Location) (scope : Nat) : Lower Unit := do
  let slots ← takeSlots
  let block ← exitBlock
  popScope scope
  setComponentSlots d pattern firstOther slots block

def enterTemplateSlot (tag : Tag) (d : Directive) : Lower (List Exit) := do
  modifyPlan fun p => { p with nonTemplate := true }
  let loop := tag.directive? "for"
  let head ← loop.elim (pure none) loopHead
  let scope ← pushScope (slotVariables d.exp ++ head.toList.flatMap LoopHead.names)
  enterBlock tag.loc false
  let otherwise := (tag.directive? "else-if").or (tag.directive? "else")
  return [.templateSlot d (tag.directive? "if") otherwise loop head scope]

def setTemplateSlot (d : Directive) (condition otherwise loop : Option Directive)
    (head : Option LoopHead) (block : Block) : Lower Unit := do
  match ← parentFrame? with
  | none => return ()
  | some parent =>
    match SlotGroup.addTemplate parent.slots d ⟨block, d.exp⟩ condition otherwise loop head with
    | .ok slots => modifyParent fun p => { p with slots }
    | .error mistake => report mistake.code mistake.loc

def exitTemplateSlot (d : Directive) (condition otherwise loop : Option Directive)
    (head : Option LoopHead) (scope : Nat) : Lower Unit := do
  let block ← exitBlock
  popScope scope
  setTemplateSlot d condition otherwise loop head block

def isInComponent : Lower Bool := do
  return ((← parentNode).bind Visited.tag?).any Tag.isComponent

def slotStep : Lower (List Exit) := do
  match ← node with
  | some (.node _ (.element tag children)) =>
    let d := tag.directive? "slot"
    if tag.isComponent then
      match (tag.directive? "slots").bind Directive.exp with
      | some e => addSlots [.object e]
      | none => pure ()
      if children.isEmpty then return []
      enterComponentSlots tag children d
    else
      match d with
      | none => return []
      | some d =>
        if tag.type == .template && (← isInComponent) then enterTemplateSlot tag d
        else
          report .slotMisplaced (some d.loc)
          return []
  | _ => return []

end Lower

end JsxTemplate
