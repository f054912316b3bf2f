import JsxTemplate.Code.Component
import JsxTemplate.Code.Loop
import JsxTemplate.Code.Route

/-!
# Blocks

The code of a block is a function that clones markup, finds nodes in it, carries out the operations and
gives nodes back.
-/

namespace JsxTemplate

namespace Emit

/-! ## Operations without blocks -/

/-- One of the values of a text: a literal, or something that is turned into text. -/
def textValue (e : Expression) : Emit Code := do
  match e.literal? with
  | some text => return [.mapped (Text.quote text) e.loc none]
  | none => callHelper "toDisplayString" [some (← expression e)]

def setText (element : Nat) (values : List Expression) (generated : Bool) : Emit Listing := do
  let texts ← values.mapM textValue
  statement "setText"
    [some (.use (.content generated element)),
      some (.ofCode (texts.intersperse [.code " + "]).flatten)]

def setHtml (element : Nat) (value : Expression) : Emit Listing := do
  let value ← expression value
  statement "setHtml" [some (.use (.node element)), some (.ofCode value)]

def setReference (element : Nat) (value : Expression) (inLoop effect : Bool) : Emit Listing := do
  let value ← expression value
  let former :=
    if effect then some (Listing.use (.reference element))
    else if inLoop then some [.text "void 0"]
    else none
  let target := if effect then [Piece.use (.reference element) " = "] else []
  let call := Listing.call "_setTemplateRef"
    [some (.use (.node element)), some (.ofCode value), former,
      if inLoop then some [.text "true"] else none]
  return .newline :: target ++ call

def insertNodes (elements : List Nat) (into : Insertion) : Emit Listing := do
  let _ ← helper (if into.anchor = some .front then "prepend" else "insert")
  return [.newline, .insertNodes elements into]

def textChild (parent : Nat) : Emit Listing := do
  let _ ← helper "child"
  return [.newline, .textChild parent]

def insertionState : Option Insertion → Emit Listing
  | none => return []
  | some into => do
    let _ ← helper "setInsertionState"
    return [.newline, .insertionState into]

def cloneNode (id template : Option Nat) : Emit Listing := do
  match id, template with
  | some id, some template =>
    let directives ← directivesOf id
    return .newline :: .clone id template :: directives
  | _, _ => return []

def referenceSetter (root : Bool) : Emit Listing := do
  if root && (← get).hasReference then
    let create ← helper "createTemplateRefSetter"
    return [.newline, .text ("const _setTemplateRef = " ++ create ++ "()")]
  else return []

def rerun (body : Listing) : Emit Listing := do
  if body.isEmpty then return []
  else
    let name ← helper "renderEffect"
    return .newline :: .text (name ++ "(() => ") :: Listing.effectFunction body

def isInside (e : Expression) (start stop : Nat) : Bool :=
  !e.isStatic && e.loc.start.offset ≤ start && stop ≤ e.loc.stop.offset

/-- The references in an expression that holds elements, if there are names to be replaced. -/
def nestedReferences (e : Expression) : Emit (List Script.Reference) := do
  if (← names).isEmpty then return []
  else return (Script.references? e.content).getD []

/-- A value of nodes, as a function unless it never changes. If elements of `blocks` are part of it,
`nested` writes them. -/
def nodeValue (once : Bool) (blocks : List NestedBlock)
    (nested : Expression → List Script.Reference → Emit Listing) (e : Expression) :
    Emit Listing := do
  let code ←
    if blocks.any fun b => isInside e b.start b.stop then do nested e (← nestedReferences e)
    else Listing.ofCode <$> expression e
  return if once || e.isStatic || e.isConstant then code else .getter code

def withBlock (b : Block) (write : Emit Listing) : Emit Listing := do
  enterBlock b
  let code ← write
  exitBlock
  return code

def thunk (body : Emit Listing) : Emit Listing := do
  return [.function [] (← body)]

def createBranch (condition : Expression) (positive : Listing) (negative : Option Listing)
    (once : Bool) : Emit Listing := do
  let condition ← expression condition
  callWith "createIf"
    [some (.ofCode (Code.getter condition)), some positive, negative,
      if once then some [.text "true"] else none]

/-- Ways to nodes, and the code that comes after all of them. -/
structure Found where
  ways : Listing
  code : Listing

def Found.nothing : Found := ⟨[], []⟩

def Found.append (a b : Found) : Found := ⟨a.ways ++ b.ways, a.code ++ b.code⟩

def Found.all (f : Found) : Listing := f.ways ++ f.code

/-- What `find` finds below a node, if the node has a variable. -/
def below (id : Option Nat) (find : Variable → Emit Found) : Emit Found :=
  match id with
  | none => return .nothing
  | some id => find (.node id)

/-- The code that makes a node. Nodes below one with markup of its own are found at once. -/
def nodeWithMarkup (n : NodePlan) (own : Emit Listing) (find : Variable → Emit Found) :
    Emit Listing := do
  let code ← own
  let found ← below (if n.isDetached && n.hasDynamicChild then n.id else none) find
  return code ++ found.all

/-- What is made in the place of a node that is found: nothing, unless a placeholder stands there. -/
def atPlaceholder (n : NodePlan) (make : Emit Listing) : Emit Listing :=
  if n.target == n.anchor then make else return []

def targetDirectives : Option Nat → Emit Listing
  | none => return []
  | some id => directivesOf id

end Emit

/-! ## Blocks and operations -/

namespace Listing

open Emit

mutual

def operation : Operation → Emit Listing
  | .setProperty element property tag => setProperty element property tag
  | .setProperties element groups tag => setProperties element groups tag
  | .setText element values generated => setText element values generated
  | .setEvent listener => setEvent listener
  | .setEvents element value => setEvents element value
  | .setHtml element value => setHtml element value
  | .setReference element value inLoop effect => setReference element value inLoop effect
  | .insertNodes elements into => insertNodes elements into
  | .directive use => builtinDirective use
  | .declareReference id => return [.newline, .formerValue id]
  | .getTextChild parent => textChild parent
  | .setNodes element values blocks once generated => do
    let values ← values.mapM <|
      nodeValue once blocks fun e references => nestedExpression e references 0 blocks
    statement "setNodes" (some (.use (.content generated element)) :: values.map some)
  | .createNodes id values blocks once _ => do
    let values ← values.mapM <|
      nodeValue once blocks fun e references => nestedExpression e references 0 blocks
    let call ← callWith "createNodes" (values.map some)
    return .newline :: .make id :: call
  | .branch b _ => do
    let call ← branch b
    return .newline :: .make b.id :: call
  | .loop l _ => loop l
  | .component c _ => component c

/-- The code of operations, each with the place where its nodes are inserted. -/
def operations : List Operation → Emit Listing
  | [] => return []
  | op :: ops => do
    let into ← insertionState op.insertion?
    let code ← operation op
    let rest ← operations ops
    return into ++ code ++ rest

/-- The code of what makes a node, with the place where it is inserted. -/
def ownOperation : Option Operation → Emit Listing
  | none => return []
  | some op => do
    let into ← insertionState op.insertion?
    let code ← operation op
    return into ++ code

/-- The code of the operations of effects; only those effects count whose expressions pass a test. -/
def effectOperations (test : List Expression → Bool) : List Effect → Emit Listing
  | [] => return []
  | ⟨expressions, ops⟩ :: effects => do
    let code ← if test expressions then operations ops else pure []
    let rest ← effectOperations test effects
    return code ++ rest

/-- The code of the effects that are given to selectors, which are counted from `index`. -/
def selectorEffects (id : Nat) (test : List Expression → Bool) (index : Nat) :
    List Effect → Emit Listing
  | [] => return []
  | ⟨expressions, ops⟩ :: effects => do
    if test expressions then
      let code ← operations ops
      let rest ← selectorEffects id test (index + 1) effects
      return .newline :: .text (Code.selectorName id index ++ "(() => \x7b") :: .fragment .indent
        :: code ++ .fragment .dedent :: .newline :: .text "\x7d)" :: rest
    else selectorEffects id test index effects

def blockBody (root : Bool) : Block → Emit Listing
  | ⟨loc, plan, effects, ops, returns⟩ => withBlock ⟨loc, plan, effects, ops, returns⟩ do
    let setter ← referenceSetter root
    let nodes ← blockNodes plan
    let code ← operations ops
    let effects ← rerun (← effectOperations (fun _ => true) effects)
    return setter ++ nodes ++ code ++ effects ++ returning returns

/-- The statements of the body of a loop; `kind` says how effects are run. -/
def loopBody (id : Nat) (kind : List Expression → LoopEffect) : Block → Emit Listing
  | ⟨loc, plan, effects, ops, returns⟩ => withBlock ⟨loc, plan, effects, ops, returns⟩ do
    let nodes ← blockNodes plan
    let code ← operations ops
    let regular ← rerun (← effectOperations (fun es => kind es == .regular) effects)
    let selected ← selectorEffects id (fun es => (kind es).value?.isSome) 0 effects
    let fixed ← effectOperations (fun es => kind es == .keyOnly) effects
    return nodes ++ code ++ regular ++ selected ++ fixed ++ returning returns

/-- The statements that make the nodes on top of a block and find nodes below them. -/
def blockNodes : NodePlan → Emit Listing
  | ⟨_, _, _, _, _, children, _, _, _⟩ => do
    let made ← makeNodes children
    let found ← findBelow children
    return made ++ found

def makeNode : NodePlan → Emit Listing
  | ⟨id, _, _, _, _, _, template, _, op⟩ => do
    let clone ← cloneNode id template
    let own ← ownOperation op
    return clone ++ own

def makeNodes : List NodePlan → Emit Listing
  | [] => return []
  | n :: ns => do
    let code ← makeNode n
    let rest ← makeNodes ns
    return code ++ rest

def findBelow : List NodePlan → Emit Listing
  | [] => return []
  | n :: ns => do
    let found ← below n.id fun parent => findIn parent n
    let rest ← findBelow ns
    return found.all ++ rest

/-- What is found below a node, whose variable is `parent`: first among its children, and then below
them. -/
def findIn (parent : Variable) : NodePlan → Emit Found
  | ⟨_, _, _, _, _, children, _, _, _⟩ => do
    let (found, parents) ← findAmong parent 0 none children
    let deeper ← findUnder parents children
    return found.append deeper

/-- What is found among the children of a node, and the variables of those children below which there
is more to find. The children before them make `position` nodes of the markup, and `previous` is the last
child that was found, with its index. -/
def findAmong (parent : Variable) (position : Int) (previous : Option (Variable × Int)) :
    List NodePlan → Emit (Found × List (Option Variable))
  | [] => return (.nothing, [])
  | n :: ns => do
    let index := n.place position
    if n.isPassedOver then
      let code ← nodeWithMarkup n (makeNode n) fun parent => findIn parent n
      let (found, parents) ← findAmong parent (index + 1) previous ns
      return (Found.append ⟨[], code⟩ found, none :: parents)
    else
      let v ← variableOf n.target
      let way ← find v (Route.choose parent previous index)
      let code ← atPlaceholder n (nodeWithMarkup n (makeNode n) fun parent => findIn parent n)
      let directives ← targetDirectives n.target
      let (found, parents) ← findAmong parent (index + 1) (some (v, index)) ns
      return (Found.append ⟨way, code ++ directives⟩ found,
        (if n.isDetached then none else some v) :: parents)

def findUnder : List (Option Variable) → List NodePlan → Emit Found
  | some v :: parents, n :: ns => do
    let found ← findIn v n
    let rest ← findUnder parents ns
    return found.append rest
  | none :: parents, _ :: ns => findUnder parents ns
  | _, _ => return .nothing

/-- The code of an expression from byte `last` on, in which elements are replaced by calls of their
blocks. -/
def nestedExpression (e : Expression) (references : List Script.Reference) (last : Nat) :
    List NestedBlock → Emit Listing
  | [] => do return ofCode (e.substitute (← names) references last e.content.utf8ByteSize).1
  | ⟨start, stop, b⟩ :: blocks => do
    if isInside e start stop then
      let offset := e.loc.start.offset
      let before := (e.substitute (← names) references last (start - offset)).1
      let code ← thunk (blockBody false b)
      let rest ← nestedExpression e references (stop - offset) blocks
      return ofCode before ++ .text "(" :: code ++ .text ")()" :: rest
    else nestedExpression e references last blocks

def branch : Branch → Emit Listing
  | ⟨_, condition, positive, negative, once⟩ => do
    let positive ← thunk (blockBody false positive)
    let negative ← otherwise negative
    createBranch condition positive negative once

def otherwise : Option Otherwise → Emit (Option Listing)
  | none => return none
  | some (.block b) => do return some (← thunk (blockBody false b))
  | some (.branch b) => do return some (.text "() => " :: (← branch b))

def loop : LoopPlan → Emit Listing
  | ⟨id, head, keyProperty, render, once, component, onlyChild⟩ => do
    let source ← expression head.source
    let kind := LoopEffect.ofExpressions (← get).options.optimizeLoops head keyProperty
    let values := render.effects.filterMap fun effect => (kind effect.expressions).value?
    let selectors ← values.mapM expression
    let scope ← enterLoop head
    let body ← withNames scope.names (loopBody id kind render)
    exitScope
    let key ← loopKey head keyProperty
    createLoop id source [.function scope.parameters body] key
      (loopFlags onlyChild component once) selectors

def component : ComponentUse → Emit Listing
  | ⟨id, tag, groups, slots, root, once, dynamic⟩ => do
    let tag ← componentTag tag dynamic
    let properties ← componentProperties groups
    let parts ← slotParts slots
    createComponent id dynamic root once tag properties (Listing.slots parts)

def slotParts : List SlotGroup → Emit (List SlotPart)
  | [] => return []
  | group :: groups => do
    let part ← slotPart group
    let rest ← slotParts groups
    return part :: rest

def slotPart : SlotGroup → Emit SlotPart
  | .fixed slots => do return .named (← namedSlots slots)
  | .dynamic slot => do return .source (getter (← dynamicSlot slot))
  | .object value => do return .source (ofCode (← expression value))

def namedSlots : List NamedSlot → Emit (List Listing)
  | [] => return []
  | ⟨name, body⟩ :: slots => do
    let code ← slotBody body
    let rest ← namedSlots slots
    return (.text (Text.quote name ++ ": ") :: code) :: rest

def slotBody : SlotBody → Emit Listing
  | ⟨b, pattern⟩ => do
    let scope ← enterSlot pattern
    let code ← withNames scope.names (blockBody false b)
    exitSlot scope
    return [.function scope.parameter.toList code]

def dynamicSlot : DynamicSlot → Emit Listing
  | .single name body => do
    let name ← expression name
    let body ← slotBody body
    return slotObject name body
  | .loop name body head => do
    let source ← expression head.source
    let slot ← withNames head.shadows do
      let name ← expression name
      let body ← slotBody body
      return slotObject name body
    let callback := ofCode head.parameters ++ .text " => (" :: slot ++ [.text ")"]
    callWith "createForSlots" [some (ofCode source), some callback]
  | .conditional condition positive negative => do
    let condition ← expression condition
    let positive ← dynamicSlot positive
    let negative ← otherSlot negative
    return ofCode condition ++ .fragment .indent :: .newline :: .text "? " :: positive
      ++ .newline :: .text ": " :: negative ++ [.fragment .dedent]

def otherSlot : Option DynamicSlot → Emit Listing
  | none => return [.text "void 0"]
  | some slot => dynamicSlot slot

end

end Listing

/-! ## The code of blocks and operations -/

namespace Emit

def operation (op : Operation) : Emit Code := do return (← Listing.operation op).code

def effectOperations (test : List Expression → Bool) (effects : List Effect) : Emit Code := do
  return (← Listing.effectOperations test effects).code

def renderEffect (body : Code) : Emit Code := do return (← rerun (.ofCode body)).code

def blockBody (root : Bool) (b : Block) : Emit Code := do return (← Listing.blockBody root b).code

def function (parameters : List String) (body : Emit Code) : Emit Code := do
  return Code.function parameters (← body)

end Emit

end JsxTemplate
