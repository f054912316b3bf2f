/-!
# Script trees

The expressions of a template are written in a script language. A script is read into a tree whose
nodes have a kind, the range of bytes they cover, and children in the order of the source. Only the
kinds that the compiler tells apart have a name of their own; a node that merely holds its parts
together is a `group`, and everything about types is a `type`.
-/

namespace JsxTemplate.Script

structure Span where
  start : Nat
  stop : Nat
  deriving DecidableEq, Repr, Inhabited

/-- How a property of an object literal is written. -/
inductive PropertyForm where
  | plain
  /-- A variable alone, which gives both the key and the value. -/
  | shorthand
  /-- A function written after its key. -/
  | method
  | accessor
  deriving DecidableEq, Repr, Inhabited

inductive Kind where
  /-- A variable that is read or assigned, a component that is named, or a type that is named. -/
  | reference (name : String)
  | binding (name : String)
  /-- A name that is no variable, such as that of a property. -/
  | name (text : String)
  | privateName
  /-- The receiver of the method around it. -/
  | this
  /-- The parent of the class around it. -/
  | super
  | string (value : String)
  | number
  | bigint
  | boolean
  | null
  | regex
  /-- A template literal: the texts around its expressions, which are its children. A text has no
  value if it holds a bad escape. -/
  | template (texts : List (Option String))
  /-- A template literal behind a function. -/
  | tagged
  | paren
  /-- An expression with a mark for the type checker: `as`, `satisfies` or `!`. -/
  | typed
  /-- A function with type arguments, not called. -/
  | instantiation
  | unary
  | update
  | binary (op : String)
  /-- An operator that may leave its second operand alone. -/
  | logical (op : String)
  /-- A private name looked up in an object. -/
  | privateIn
  | conditional
  | sequence
  | assignment (op : String)
  | member
  /-- Accesses and calls, at least one of which is left out when its object is missing. -/
  | chain
  | call
  | construct
  /-- A module loaded as an expression. -/
  | importCall
  /-- A property of the language itself, such as `new.target`. -/
  | metaProperty
  | array
  | elision
  | spread
  | object
  /-- A property of an object literal; its first child is the key. -/
  | property (form : PropertyForm) (computed : Bool)
  | arrow
  /-- A function written with its keyword, or a method. -/
  | function
  | classDefinition
  | params
  | param
  /-- The remaining arguments of a function. -/
  | restParam
  | await
  | yield
  | objectPattern
  /-- A property of a pattern; its children are the key and the pattern of its value. -/
  | patternProperty (computed : Bool)
  | arrayPattern
  | withDefault
  | rest
  /-- A part that is not evaluated as an expression: what is assigned to, or a declared function. -/
  | place
  | type
  /-- A node that holds its parts together, such as a statement. -/
  | group
  | jsxElement (tag : String) (selfClosing : Bool)
  | jsxFragment
  /-- An attribute; `nameStop` is where its name ends. -/
  | jsxAttribute (name : String) (arg : Option String) (nameStop : Nat)
  | jsxSpread
  | jsxString (value : String)
  /-- An expression in braces, or nothing in braces. -/
  | jsxContainer
  /-- Several children given by one expression. -/
  | jsxSpreadChild
  | jsxText (text : String)
  deriving DecidableEq, Repr, Inhabited

namespace Kind

def isExpression : Kind → Bool
  | .reference _ | .this | .super | .string _ | .number | .bigint | .boolean | .null | .regex
  | .template _ | .tagged | .paren | .typed | .instantiation | .unary | .update | .binary _
  | .logical _ | .privateIn | .conditional | .sequence | .assignment _ | .member | .chain | .call
  | .construct | .importCall | .metaProperty | .array | .object | .arrow | .function | .classDefinition
  | .await | .yield | .jsxElement _ _ | .jsxFragment => true
  | _ => false

/-- Whether the children of a node of this kind do not stand where an expression stands, even if
they look like one: what is assigned to, the name of a type, the tag and the children of an
element. -/
def holdsPlaces : Kind → Bool
  | .place | .type | .jsxElement _ _ | .jsxFragment | .jsxAttribute _ _ _ => true
  | _ => false

end Kind

/-- A node of a script: its kind, the bytes it covers, and its children in the order of the source. -/
inductive Tree where
  | node (kind : Kind) (span : Span) (children : List Tree)
  deriving Repr, Inhabited

namespace Tree

def kind : Tree → Kind
  | .node k _ _ => k

def span : Tree → Span
  | .node _ s _ => s

def children : Tree → List Tree
  | .node _ _ cs => cs

mutual

/-- The nodes of a tree, each before its children. -/
def nodes : Tree → List Tree
  | t@(.node _ _ cs) => t :: nodesOf cs

def nodesOf : List Tree → List Tree
  | [] => []
  | t :: ts => nodes t ++ nodesOf ts

end

/-- The names of the variables that are introduced anywhere in a tree. -/
def bindings (t : Tree) : List String :=
  t.nodes.filterMap fun n =>
    match n.kind with
    | .binding name => some name
    | _ => none

end Tree

end JsxTemplate.Script
