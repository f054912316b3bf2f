import JsxTemplate.Diagnostic
import JsxTemplate.Plan.Basic
import JsxTemplate.Script.Constant
import JsxTemplate.Template.Node

/-!
# The state of lowering

A template is lowered to a plan by a walk over its nodes. The state of the walk (`Context`) holds a
frame for each node on the way from the top to the current node, and the block that is being filled.
A construct with a block of its own puts the block around it aside (`enterBlock`) and takes it up again
when the walk leaves the construct (`exitBlock`).

Steps of the walk are `Lower` actions: functions on the state.
-/

namespace JsxTemplate

/-! ## Nodes on the way -/

/-- The way from the top of a template to a node: the indices of the children, the last one first. -/
abbrev Path := List Nat

/-- A node as the walk sees it. -/
inductive Visited where
  | root (template : Template)
  | node (path : Path) (node : Node)
  /-- An element with a condition or a loop, seen as something that holds only that element. -/
  | wrapped (path : Path) (tag : Tag) (children : List Node)
  deriving Inhabited

namespace Visited

def children : Visited → List Visited
  | .root t => t.children.zipIdx.map fun c => .node [c.2] c.1
  | .node path n => n.children.zipIdx.map fun c => .node (c.2 :: path) c.1
  | .wrapped path tag children => [.node path (.element tag children)]

/-- Whether the children of a node are the top nodes of a block, and not part of its own markup. -/
def isFragment : Visited → Bool
  | .root _ | .wrapped _ _ _ | .node _ (.fragment _ _) => true
  | .node _ (.element tag _) => tag.type != .element
  | .node _ _ => false

def tag? : Visited → Option Tag
  | .node _ (.element tag _) => some tag
  | _ => none

def isTextLike : Visited → Bool
  | .node _ n => n.isTextLike
  | _ => false

def isText : Visited → Bool
  | .node _ (.text _ _) => true
  | _ => false

def isExpression : Visited → Bool
  | .node _ (.expression _ _ _) => true
  | _ => false

def loc : Visited → Location
  | .root t => t.loc
  | .node _ n => n.loc
  | .wrapped _ tag _ => tag.loc

/-- The way to a node. An element and its wrapper have the same. -/
def path : Visited → Path
  | .root _ => []
  | .node path _ => path
  | .wrapped path _ _ => path

/-- Whether a node stands for its children alone. -/
def isTemplateLike : Visited → Bool
  | .wrapped _ _ _ => true
  | .node _ (.element tag _) => tag.type == .template
  | _ => false

/-- Whether a node is an element with an attribute of one of the given names. -/
def hasAttribute (names : List String) (v : Visited) : Bool :=
  v.tag?.any fun tag => tag.attributes.any fun a => names.contains a.name

/-- Whether some children are a single condition: a head, and further branches behind it. `seen` says
that the head has been met. -/
def isSingleCondition : Bool → List Visited → Bool
  | seen, [] => seen
  | seen, c :: cs =>
    if c.hasAttribute ["v-if"] then !seen && isSingleCondition true cs
    else seen && c.hasAttribute ["v-else", "v-else-if"] && isSingleCondition true cs

/-- Whether only one child of a node is rendered: there is only one, or all are branches of a single
condition. -/
def hasSingleChild (v : Visited) : Bool :=
  v.children.length == 1 || isSingleCondition false v.children

end Visited

/-! ## The state -/

structure Frame where
  /-- The node, unless it was removed. -/
  node : Option Visited
  index : Nat
  plan : NodePlan
  template : String
  childTemplates : List String
  slots : List SlotGroup
  once : Bool
  rootTemplate : Bool

def Frame.ofNode (node : Visited) (index : Nat) (once : Bool) : Frame :=
  { node := some node
    index
    plan := .empty
    template := ""
    childTemplates := []
    slots := []
    once
    rootTemplate := false }

structure OpenBlock where
  loc : Location
  effects : List Effect
  operations : List Operation
  returns : List Nat

def OpenBlock.empty (loc : Location) : OpenBlock := ⟨loc, [], [], []⟩

def OpenBlock.close (b : OpenBlock) (plan : NodePlan) : Block :=
  ⟨b.loc, plan, b.effects, b.operations, b.returns⟩

/-- What is put aside while another block is filled. -/
structure SavedBlock where
  block : OpenBlock
  plan : NodePlan
  template : String
  childTemplates : List String
  slots : List SlotGroup
  /-- Whether the block that is filled in between is the body of a loop. -/
  isLoop : Bool
  discarding : Bool

inductive Event where
  /-- A block was entered at a node; `isLoop` says that it is the body of a loop. -/
  | entered (path : Path) (isLoop : Bool)
  | left
  | gathered (path : Path)
  deriving DecidableEq, Repr

structure LoweringOptions where
  collectErrors : Bool
  /-- The tags that look like components, but are elements. -/
  isCustomElement : String → Bool

structure Context where
  root : Template
  options : LoweringOptions
  templates : List String
  rootTemplates : List Nat
  components : List String
  directives : List String
  hasReference : Bool
  block : OpenBlock
  /-- How many loops are around the current node. -/
  loopDepth : Nat
  frame : Frame
  /-- The frames of the nodes around it, the nearest first. -/
  outer : List Frame
  saved : List SavedBlock
  nextId : Nat
  /-- Which nodes were dealt with, and for what purpose. -/
  seen : List (Path × String)
  scope : List String
  errors : List Diagnostic
  aborted : Bool
  /-- Whether the markup of the current block is dropped. -/
  discarding : Bool
  /-- Why a piece could not be cut out of the template. All that the walk has made is void then. -/
  fault : Option Text.CutFault
  remarks : List String
  /-- What the walk has done, the last first. -/
  log : List Event
  /-- Whether something was to be inserted behind the end of a list. -/
  overrun : Bool

abbrev Lower := StateM Context

def Context.ofTemplate (options : LoweringOptions) (t : Template) : Context :=
  { root := t
    options
    templates := []
    rootTemplates := []
    components := []
    directives := []
    hasReference := false
    block := .empty t.loc
    loopDepth := 0
    frame := .ofNode (.root t) 0 false
    outer := []
    saved := []
    nextId := 0
    seen := []
    scope := []
    errors := []
    aborted := false
    discarding := false
    fault := none
    remarks := []
    log := []
    overrun := false }

def Context.finish (c : Context) : RenderPlan :=
  { source := c.root.source
    templates := c.templates
    rootTemplates := c.rootTemplates
    components := c.components
    directives := c.directives
    hasReference := c.hasReference
    block := c.block.close c.frame.plan }

namespace Lower

def note (event : Event) : Lower Unit :=
  modify fun c => { c with log := event :: c.log }

/-! ## Frames -/

def modifyFrame (f : Frame → Frame) : Lower Unit :=
  modify fun c => { c with frame := f c.frame }

def modifyPlan (f : NodePlan → NodePlan) : Lower Unit :=
  modifyFrame fun frame => { frame with plan := f frame.plan }

def modifyParent (f : Frame → Frame) : Lower Unit :=
  modify fun c =>
    match c.outer with
    | [] => c
    | parent :: outer => { c with outer := f parent :: outer }

def pushFrame (node : Visited) (index : Nat) : Lower Unit :=
  modify fun c =>
    { c with frame := .ofNode node index c.frame.once, outer := c.frame :: c.outer }

def popFrame : Lower Frame := do
  let c ← get
  match c.outer with
  | [] => pure ()
  | parent :: outer => set { c with frame := parent, outer }
  return c.frame

def node : Lower (Option Visited) := do return (← get).frame.node

def parentFrame? : Lower (Option Frame) := do return (← get).outer.head?

def parentNode : Lower (Option Visited) := do return (← parentFrame?).bind Frame.node

def isRootChild : Lower Bool := do return (← get).outer.length == 1

def index : Lower Nat := do return (← get).frame.index

def replaceNode (node : Visited) : Lower Unit :=
  modifyFrame fun f => { f with node := some node }

def removeNode : Lower Unit :=
  modifyFrame fun f => { f with node := none }

def inOnce : Lower Bool := do return (← get).frame.once

def setOnce : Lower Unit :=
  modifyFrame fun f => { f with once := true }

def setChildTemplates (templates : List String) : Lower Unit :=
  modifyFrame fun f => { f with childTemplates := templates }

def takeSlots : Lower (List SlotGroup) := do
  let slots := (← get).frame.slots
  modifyFrame fun f => { f with slots := [] }
  return slots

def addSlots (slots : List SlotGroup) : Lower Unit :=
  modifyFrame fun f => { f with slots := f.slots ++ slots }

/-- Whether, going up over nodes that stand for their children alone, one comes to the top of the
template, and only one child is rendered everywhere. -/
def isSingleRootIn : List Frame → Bool
  | [] => false
  | frame :: outer =>
    frame.node.any Visited.hasSingleChild
      && (outer.isEmpty || (frame.node.any Visited.isTemplateLike && isSingleRootIn outer))

def isSingleRoot : Lower Bool := do
  let c ← get
  return c.loopDepth == 0 && isSingleRootIn c.outer

/-! ## Numbers and markup -/

def freshId : Lower Nat := do
  let c ← get
  set { c with nextId := c.nextId + 1 }
  return c.nextId

/-- The number of the current node, which is given one if it has none. -/
def reference : Lower Nat := do
  match (← get).frame.plan.id with
  | some id => return id
  | none =>
    let id ← freshId
    modifyPlan fun p => { p with id := some id, referenced := true }
    return id

/-- The index of a piece of markup, which is added if it is new. -/
def pushTemplate (content : String) : Lower Nat := do
  let c ← get
  match c.templates.idxOf? content with
  | some index => return index
  | none =>
    set { c with templates := c.templates ++ [content] }
    return c.templates.length

/-- Make the markup of the current node a piece of its own, unless it is empty or dropped. -/
def registerTemplate : Lower (Option Nat) := do
  let c ← get
  if c.discarding || c.frame.template.isEmpty then return none
  let index ← pushTemplate c.frame.template
  modifyPlan fun p => { p with template := some index }
  return some index

/-! ## Blocks -/

/-- Put the current block aside and fill another one. -/
def enterBlock (loc : Location) (isLoop : Bool) : Lower Unit :=
  modify fun c =>
    let saved : SavedBlock :=
      { block := c.block
        plan := c.frame.plan
        template := c.frame.template
        childTemplates := c.frame.childTemplates
        slots := c.frame.slots
        isLoop
        discarding := c.discarding }
    { c with
      block := .empty loc
      discarding := false
      frame := { c.frame with plan := .empty, template := "", childTemplates := [], slots := [] }
      saved := saved :: c.saved
      loopDepth := if isLoop then c.loopDepth + 1 else c.loopDepth
      log := .entered (c.frame.node.elim [] Visited.path) isLoop :: c.log }

/-- Finish the current block and take up the one that was put aside. -/
def exitBlock : Lower Block := do
  let _ ← registerTemplate
  note .left
  let c ← get
  match c.saved with
  | [] => return OpenBlock.close (.empty .stub) .empty
  | saved :: rest =>
    set { c with
      block := saved.block
      discarding := saved.discarding
      frame :=
        { c.frame with
          plan := saved.plan
          template := saved.template
          childTemplates := saved.childTemplates
          slots := saved.slots }
      saved := rest
      loopDepth := if saved.isLoop then c.loopDepth - 1 else c.loopDepth }
    return c.block.close c.frame.plan

def discardTemplates : Lower Unit :=
  modify fun c => { c with discarding := true }

/-! ## Operations -/

/-- Insert an item into a list, at an index if one is given. The result has also the index of the next
item. -/
def insertAt {α : Type} (items : List α) (item : α) : Option Nat → List α × Option Nat
  | none => (items ++ [item], none)
  | some index => (items.take index ++ item :: items.drop index, some (index + 1))

def isBehind {α : Type} (items : List α) (index : Option Nat) : Bool :=
  index.any fun i => items.length < i

def registerOperation (operation : Operation) (index : Option Nat) : Lower (Option Nat) := do
  let c ← get
  let (operations, next) := insertAt c.block.operations operation index
  let overrun := c.overrun || isBehind c.block.operations index
  set { c with block := { c.block with operations }, overrun }
  return next

def addOperation (operation : Operation) : Lower Unit := do
  let _ ← registerOperation operation none
  return ()

/-- Places in the two lists of a block. -/
structure Cursor where
  effect : Option Nat
  operation : Option Nat
  deriving DecidableEq, Repr

def Cursor.atEnd : Cursor := ⟨none, none⟩

/-- Add an operation that runs again when one of the expressions changes. Constant expressions do not
count; if there are no others, or if all is rendered only once, the operation runs once. -/
def registerEffect (expressions : List Expression) (operation : Operation) (cursor : Cursor) :
    Lower Cursor := do
  let expressions := expressions.filter fun e => !e.isConstant
  if (← inOnce) || expressions.isEmpty then
    let next ← registerOperation operation cursor.operation
    return { cursor with operation := next }
  else
    let c ← get
    let (effects, next) := insertAt c.block.effects ⟨expressions, [operation]⟩ cursor.effect
    let overrun := c.overrun || isBehind c.block.effects cursor.effect
    set { c with block := { c.block with effects }, overrun }
    return { cursor with effect := next }

def addEffect (expressions : List Expression) (operation : Operation) : Lower Unit := do
  let _ ← registerEffect expressions operation .atEnd
  return ()

/-! ## Bookkeeping -/

def isSeen (path : Path) (purpose : String) : Lower Bool := do
  return (← get).seen.contains (path, purpose)

/-- Note that a node is dealt with for a purpose. The result says whether this is news. -/
def markSeen (path : Path) (purpose : String) : Lower Bool := do
  if ← isSeen path purpose then return false
  modify fun c => { c with seen := (path, purpose) :: c.seen }
  return true

/-- Bring variables into scope. The result is their number. -/
def pushScope (names : List String) : Lower Nat := do
  modify fun c => { c with scope := c.scope ++ names }
  return names.length

def popScope (count : Nat) : Lower Unit :=
  modify fun c => { c with scope := c.scope.take (c.scope.length - count) }

def isInScope (name : String) : Lower Bool := do return (← get).scope.contains name

def addComponent (name : String) : Lower Unit :=
  modify fun c =>
    if c.components.contains name then c else { c with components := c.components ++ [name] }

def addDirective (name : String) : Lower Unit :=
  modify fun c =>
    if c.directives.contains name then c else { c with directives := c.directives ++ [name] }

/-- Report a mistake. The walk stops unless mistakes are collected. -/
def report (code : ErrorCode) (loc : Option Location) : Lower Unit :=
  modify fun c =>
    { c with
      errors := c.errors ++ [⟨code, loc⟩]
      aborted := c.aborted || !c.options.collectErrors }

def isAborted : Lower Bool := do return (← get).aborted

def remark (text : String) : Lower Unit :=
  modify fun c => { c with remarks := c.remarks ++ [text] }

end Lower

end JsxTemplate
