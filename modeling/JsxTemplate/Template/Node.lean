import JsxTemplate.Expression

/-!
# The element tree

A template is a tree of elements, fragments, texts and expressions in braces. An expression in braces
keeps, next to its text, the elements written inside it.
-/

namespace JsxTemplate

inductive TagType where
  | element
  | component
  /-- A `template`: its children without an element of its own. -/
  | template
  deriving DecidableEq, Repr, Inhabited

structure Attribute where
  name : String
  arg : Option String
  /-- Where the name stands, with the part after the colon. -/
  nameLoc : Location
  /-- The value, unless the attribute is the name alone. -/
  value : Option Expression
  loc : Location
  deriving DecidableEq, Repr, Inhabited

def Attribute.rawName (a : Attribute) : String :=
  match a.arg with
  | none => a.name
  | some arg => a.name ++ ":" ++ arg

inductive TagItem where
  | attribute (a : Attribute)
  /-- All entries of an object, written with three dots. -/
  | spread (exp : Expression) (loc : Location)
  deriving DecidableEq, Repr, Inhabited

def TagItem.attribute? : TagItem → Option Attribute
  | .attribute a => some a
  | .spread _ _ => none

def TagItem.isSpread : TagItem → Bool
  | .attribute _ => false
  | .spread _ _ => true

structure Tag where
  /-- The name: dotted for a member (`Foo.Bar`), with a colon for a namespace (`svg:rect`). -/
  name : String
  type : TagType
  /-- The items inside the tag, in the order they were written. -/
  items : List TagItem
  /-- Whether the element was written without a closing tag. -/
  selfClosing : Bool
  loc : Location
  deriving DecidableEq, Repr, Inhabited

namespace Tag

def attributes (t : Tag) : List Attribute :=
  t.items.filterMap TagItem.attribute?

/-- The first attribute of a name, whatever follows the colon. -/
def find? (t : Tag) (name : String) : Option Attribute :=
  t.attributes.find? fun a => a.name == name

def hasSpread (t : Tag) : Bool :=
  t.items.any TagItem.isSpread

def isComponent (t : Tag) : Bool :=
  t.type == .component

end Tag

inductive Node where
  | element (tag : Tag) (children : List Node)
  | fragment (children : List Node) (loc : Location)
  | text (content : String) (loc : Location)
  /-- An expression in braces; `roots` are the fragments around the outermost elements inside it, in
  the order of the source. -/
  | expression (exp : Expression) (roots : List Node) (loc : Location)
  deriving Repr, Inhabited

namespace Node

def loc : Node → Location
  | .element tag _ => tag.loc
  | .fragment _ loc => loc
  | .text _ loc => loc
  | .expression _ _ loc => loc

/-- The children of a node; an expression has none. -/
def children : Node → List Node
  | .element _ children => children
  | .fragment children _ => children
  | .text _ _ => []
  | .expression _ _ _ => []

def isTextLike : Node → Bool
  | .text _ _ => true
  | .expression _ _ _ => true
  | _ => false

/-- A node as a fragment: itself if it is one, and otherwise one that holds only the node. -/
def asFragment : Node → Node
  | .fragment children loc => .fragment children loc
  | n => .fragment [n] n.loc

mutual

/-- The height of a node, counting also the elements inside expressions, each in a fragment. -/
def height : Node → Nat
  | .element _ children => heightAll children + 1
  | .fragment children _ => heightAll children + 1
  | .text _ _ => 1
  | .expression _ roots _ => heightAll roots + 2

def heightAll : List Node → Nat
  | [] => 0
  | n :: ns => max (height n) (heightAll ns)

end

end Node

structure Template where
  source : String
  children : List Node
  loc : Location
  deriving Repr, Inhabited

end JsxTemplate
