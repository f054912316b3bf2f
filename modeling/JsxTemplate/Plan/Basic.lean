import JsxTemplate.Loop.Head
import JsxTemplate.Plan.Property

/-!
# Rendering plans

A template is rendered in blocks. A block clones pieces of static markup, finds the nodes in them that
need attention, and then carries out operations, some of which run again whenever one of their
expressions changes. Conditions, loops, slots and elements inside expressions have blocks of their own.

A node that needs attention has a number, which is unique in the whole plan.
-/

namespace JsxTemplate

/-- Where nodes are inserted among the children of their parent. -/
inductive Anchor where
  | front
  /-- Before the placeholder with this number. -/
  | node (id : Nat)
  deriving DecidableEq, Repr, Inhabited

structure Insertion where
  parent : Nat
  /-- The place among its children; the end if there is none. -/
  anchor : Option Anchor
  deriving DecidableEq, Repr, Inhabited

mutual

/-- Something that is done to nodes, or that makes nodes. -/
inductive Operation where
  | setProperty (element : Nat) (property : Property) (tag : String)
  | setProperties (element : Nat) (groups : List PropertyGroup) (tag : String)
  /-- Set the text of a node; `generated` says that it is the text inside the element. -/
  | setText (element : Nat) (values : List Expression) (generated : Bool)
  | setEvent (listener : Listener)
  | setEvents (element : Nat) (value : Expression)
  | setHtml (element : Nat) (value : Expression)
  | setReference (element : Nat) (value : Expression) (inLoop : Bool) (effect : Bool)
  | insertNodes (elements : List Nat) (into : Insertion)
  | directive (use : DirectiveUse)
  | declareReference (id : Nat)
  | getTextChild (parent : Nat)
  /-- Replace the children of an element by values; `blocks` are the elements inside them. -/
  | setNodes (element : Nat) (values : List Expression) (blocks : List NestedBlock) (once : Bool)
      (generated : Bool)
  /-- Make nodes from values; `blocks` are the elements inside them. -/
  | createNodes (id : Nat) (values : List Expression) (blocks : List NestedBlock) (once : Bool)
      (insertion : Option Insertion)
  | branch (branch : Branch) (insertion : Option Insertion)
  | loop (loop : LoopPlan) (insertion : Option Insertion)
  | component (use : ComponentUse) (insertion : Option Insertion)

/-- What is known about a node of the template and the nodes below it. -/
structure NodePlan where
  id : Option Nat
  referenced : Bool
  /-- Whether it has no place in the markup of its block. -/
  nonTemplate : Bool
  insert : Bool
  /-- The number of the placeholder in its place. -/
  anchor : Option Nat
  children : List NodePlan
  template : Option Nat
  /-- Whether there is a node below it that needs attention. -/
  hasDynamicChild : Bool
  operation : Option Operation

structure Block where
  /-- Where the node stands that it was made for. -/
  loc : Location
  /-- The nodes on top of the block are the children of this one. -/
  plan : NodePlan
  effects : List Effect
  operations : List Operation
  returns : List Nat

/-- Operations that run again when one of the expressions changes. -/
structure Effect where
  expressions : List Expression
  operations : List Operation

structure Branch where
  id : Nat
  condition : Expression
  positive : Block
  negative : Option Otherwise
  once : Bool

inductive Otherwise where
  | block (block : Block)
  | branch (branch : Branch)

structure LoopPlan where
  id : Nat
  head : LoopHead
  keyProperty : Option Expression
  render : Block
  once : Bool
  component : Bool
  /-- Whether the loop is all that its parent holds. -/
  onlyChild : Bool

structure ComponentUse where
  id : Nat
  tag : String
  groups : List PropertyGroup
  slots : List SlotGroup
  root : Bool
  once : Bool
  /-- What says at run time which component it is. -/
  dynamic : Option Expression

inductive SlotGroup where
  | fixed (slots : List NamedSlot)
  /-- A slot whose name or presence is not known. -/
  | dynamic (slot : DynamicSlot)
  | object (value : Expression)

structure NamedSlot where
  name : String
  body : SlotBody

structure SlotBody where
  block : Block
  pattern : Option Expression

inductive DynamicSlot where
  | single (name : Expression) (body : SlotBody)
  | loop (name : Expression) (body : SlotBody) (head : LoopHead)
  | conditional (condition : Expression) (positive : DynamicSlot) (negative : Option DynamicSlot)

/-- An element inside an expression, which is rendered as a block. -/
structure NestedBlock where
  start : Nat
  stop : Nat
  block : Block

end

def NodePlan.empty : NodePlan :=
  { id := none
    referenced := false
    nonTemplate := false
    insert := false
    anchor := none
    children := []
    template := none
    hasDynamicChild := false
    operation := none }

instance : Inhabited NodePlan := ⟨.empty⟩

namespace Operation

def isBlock : Operation → Bool
  | .branch _ _ | .loop _ _ | .component _ _ | .createNodes _ _ _ _ _ => true
  | _ => false

/-- Say where the nodes of an operation are inserted, if it makes any. -/
def insertAt (insertion : Insertion) : Operation → Operation
  | .branch b _ => .branch b (some insertion)
  | .loop l _ => .loop l (some insertion)
  | .component c _ => .component c (some insertion)
  | .createNodes id values blocks once _ => .createNodes id values blocks once (some insertion)
  | op => op

def insertion? : Operation → Option Insertion
  | .branch _ i | .loop _ i | .component _ i | .createNodes _ _ _ _ i => i
  | _ => none

end Operation

structure RenderPlan where
  source : String
  /-- The pieces of static markup, without repetition. -/
  templates : List String
  /-- Which of them hold the node that is all that is rendered. -/
  rootTemplates : List Nat
  components : List String
  directives : List String
  hasReference : Bool
  block : Block

end JsxTemplate
