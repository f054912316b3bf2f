import JsxTemplate.Code.Fragment
import JsxTemplate.Plan.Basic

/-!
# Listings

A listing is code in which the declarations and the uses of variables are still visible as such, and in
which functions are nested. Its text is that of its fragments (`Listing.code`).
-/

namespace JsxTemplate

/-- A variable of the code that stands for a node, for a text, or for the former value of a reference. -/
inductive Variable where
  | node (id : Nat)
  | text (id : Nat)
  | reference (id : Nat)
  /-- A node on the way to others, with a number of its own in each block. -/
  | temporary (index : Nat)
  deriving DecidableEq, Repr, Inhabited

namespace Variable

def name : Variable → String
  | .node id => Code.nodeName id
  | .text id => "x" ++ toString id
  | .reference id => "r" ++ toString id
  | .temporary index => "p" ++ toString index

/-- The variable for a node, or for the text inside it. -/
def content (generated : Bool) (id : Nat) : Variable :=
  if generated then .text id else .node id

end Variable

inductive Route where
  | first (parent : Variable)
  /-- It comes after the first child of a node. -/
  | second (parent : Variable)
  | after (node : Variable)
  | nth (parent : Variable) (index : Int)
  deriving DecidableEq, Repr

namespace Route

def origin : Route → Variable
  | .first v | .second v | .after v | .nth v _ => v

def helpers : Route → List String
  | .first _ => ["child"]
  | .second _ => ["child", "next"]
  | .after _ => ["next"]
  | .nth _ _ => ["nthChild"]

def code : Route → Code
  | .first parent => Code.call "_child" [some (.text parent.name)]
  | .second parent => Code.call "_next" [some (Code.call "_child" [some (.text parent.name)])]
  | .after node => Code.call "_next" [some (.text node.name)]
  | .nth parent index => Code.call "_nthChild" [some (.text parent.name), some (.text (toString index))]

end Route

namespace Code

def function (parameters : List String) (body : Code) : Code :=
  .code ("(" ++ ", ".intercalate parameters ++ ") => \x7b") :: .indent :: body
    ++ [.dedent, .newline, .code "\x7d"]

def insertionState (into : Insertion) : Code :=
  let anchor := match into.anchor with
    | none => none
    | some .front => some (text "0")
    | some (.node id) => some (text (nodeName id))
  call "_setInsertionState" [some (text (nodeName into.parent)), anchor]

def insertNodes (elements : List Nat) (into : Insertion) : Code :=
  let parent := some (text (nodeName into.parent))
  let names := elements.map nodeName
  match into.anchor with
  | some .front => call "_prepend" (parent :: names.map fun name => some (text name))
  | anchor =>
    let nodes := match names with
      | [name] => name
      | names => "[" ++ ", ".intercalate names ++ "]"
    let before := match anchor with
      | some (.node id) => some (text (nodeName id))
      | _ => none
    call "_insert" [some (text nodes), parent, before]

end Code

inductive Piece where
  | fragment (f : Fragment)
  /-- A use of a variable, with some text right behind it. -/
  | use (v : Variable) (behind : String)
  | clone (id template : Nat)
  /-- Declare a node that is found by going from another one. -/
  | find (v : Variable) (route : Route)
  | textChild (id : Nat)
  | formerValue (id : Nat)
  | make (id : Nat)
  | insertionState (into : Insertion)
  | insertNodes (elements : List Nat) (into : Insertion)
  | function (parameters : List String) (body : List Piece)
  deriving Inhabited

abbrev Listing := List Piece

mutual

def Piece.code : Piece → Code
  | .fragment f => [f]
  | .use v behind => [.code (v.name ++ behind)]
  | .clone id template => [.code ("const " ++ Code.nodeName id ++ " = t" ++ toString template ++ "()")]
  | .find v route => .code ("const " ++ v.name ++ " = ") :: route.code
  | .textChild id =>
    [.code ("const " ++ (Variable.text id).name ++ " = _child(" ++ Code.nodeName id ++ ")")]
  | .formerValue id => [.code ("let " ++ (Variable.reference id).name)]
  | .make id => [.code ("const " ++ Code.nodeName id ++ " = ")]
  | .insertionState into => Code.insertionState into
  | .insertNodes elements into => Code.insertNodes elements into
  | .function parameters body => Code.function parameters (Listing.code body)

def Listing.code : Listing → Code
  | [] => []
  | p :: ps => p.code ++ Listing.code ps

end

def Piece.isNewline : Piece → Bool
  | .fragment .newline => true
  | _ => false

def Piece.newline : Piece := .fragment .newline

def Piece.text (s : String) : Piece := .fragment (.code s)

namespace Listing

def ofCode (code : Code) : Listing := code.map .fragment

def use (v : Variable) : Listing := [.use v ""]

def list (d : Delimiters) (items : List Listing) : Listing :=
  ofCode d.left ++ (items.intersperse (ofCode d.separator)).flatten ++ ofCode d.right

/-- A call. Arguments at the end that are missing are left out, and others are written as `blank`. -/
def callWithBlanks (blank : String) (name : String) (args : List (Option Listing)) : Listing :=
  .text name :: list .args ((dropMissing args).map fun item => item.getD [.text blank])

def call (name : String) (args : List (Option Listing)) : Listing :=
  callWithBlanks "null" name args

def getter (e : Listing) : Listing :=
  .text "() => (" :: e ++ [.text ")"]

def returning (ids : List Nat) : Listing :=
  .newline :: .text "return " ::
    match ids with
    | [] => [.text "null"]
    | [id] => use (.node id)
    | ids => list .array (ids.map fun id => use (.node id))

/-- The function that runs operations again, on one line if there is only one. -/
def effectFunction (body : Listing) : Listing :=
  if 1 < body.code.countP (· == .newline) then
    .text "\x7b" :: .fragment .indent :: body
      ++ [.fragment .dedent, .newline, .text "\x7d)"]
  else body.filter (fun p => !p.isNewline) ++ [.text ")"]

def slotObject (name : Code) (body : Listing) : Listing :=
  list .objectLines [.text "name: " :: ofCode name, .text "fn: " :: body]

end Listing

end JsxTemplate
