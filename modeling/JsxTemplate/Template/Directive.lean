import JsxTemplate.Template.Node
import JsxTemplate.Text.Case

/-!
# Directives

The names of attributes carry directives: `v-name` and `v-name:arg` with modifiers after underscores,
`onName` for a listener, and every other name as a binding. An argument between dollar signs is an
expression in which an underscore stands for a dot.
-/

namespace JsxTemplate

structure Directive where
  /-- The name of the directive: `if`, `on`, `bind`, `model`, `focus`. -/
  name : String
  /-- The name of the attribute as it was written. -/
  rawName : String
  /-- The argument: the event of a listener, the key of a binding. -/
  arg : Option Expression
  /-- The value, unless there is none or it is empty. -/
  exp : Option Expression
  /-- The modifiers, in the order they were written. -/
  modifiers : List String
  loc : Location
  deriving DecidableEq, Repr, Inhabited

/-- The directives that the compiler knows itself. -/
def isBuiltinDirective (name : String) : Bool :=
  ["bind", "on", "model", "show", "html", "text", "if", "else-if", "else", "for", "once", "slot",
    "slots"].contains name

/-- Whether a name is that of a listener: `on` before a capital letter. -/
def isEventName (name : String) : Bool :=
  match name.toList with
  | 'o' :: 'n' :: c :: _ => c.isUpper
  | _ => false

/-- The attributes that are meant for the compiler and never reach the element. -/
def isReservedAttribute (key : String) : Bool :=
  ["key", "ref", "ref_for", "ref_key"].contains key

/-- Whether a tag names a component: it starts with a capital letter, is a member path, or is
`component`. -/
def isComponentTag (tag : String) : Bool :=
  tag == "component" || tag.toList.contains '.' || tag.toList.head?.any Char.isUpper

namespace Directive

def hasModifier (d : Directive) (modifier : String) : Bool :=
  d.modifiers.contains modifier

def staticArg? (d : Directive) : Option String :=
  match d.arg with
  | some arg => if arg.isStatic then some arg.content else none
  | none => none

/-- A name cut at its underscores: what stands before the first of them, and the modifiers after it.
Two underscores in a row have no modifier between them. -/
def splitModifiers (part : List Char) : String × List String :=
  match part.splitOn '_' with
  | [] => ("", [])
  | head :: rest =>
    (String.ofList head, (rest.filter fun m => !m.isEmpty).map String.ofList)

/-- The argument and the modifiers in the part of a name after the colon. -/
def parseArgument (part : String) (loc : Location) : Option Expression × List String :=
  let plain :=
    let (arg, modifiers) := splitModifiers part.toList
    (if arg.isEmpty then none else some ⟨arg, true, loc⟩, modifiers)
  match part.toList with
  | '$' :: rest =>
    match rest.dropWhile (· != '$') with
    | '$' :: after =>
      let content := (rest.takeWhile (· != '$')).map fun c => if c == '_' then '.' else c
      (some ⟨String.ofList content, false, loc⟩, (splitModifiers after).2)
    | _ => plain
  | _ => plain

def isBindModifier (modifier : List Char) : Bool :=
  modifier == "prop".toList || modifier == "attr".toList || modifier == "camel".toList

/-- The key of a binding and the modifiers at the end of its name. Other underscores belong to the
key. -/
def splitBindKey (name : String) : String × List String :=
  match name.toList.splitOn '_' with
  | [] => (name, [])
  | head :: rest =>
    let modifiers := (rest.reverse.takeWhile isBindModifier).reverse
    let kept := rest.take (rest.length - modifiers.length)
    (String.ofList (['_'].intercalate (head :: kept)), modifiers.map String.ofList)

/-- The directive of a name that starts with `v-`; `body` is what follows. -/
def ofBody (a : Attribute) (body : List Char) : String × Option Expression × List String :=
  match a.arg with
  | none =>
    let (name, modifiers) := splitModifiers body
    (name, none, modifiers)
  | some part =>
    let (arg, modifiers) := parseArgument part a.nameLoc
    (String.ofList body, arg, modifiers)

/-- The directive of a listener; `body` is what follows the `on`. Event names are in lower case on
elements, while components keep all but the first letter. -/
def ofEvent (a : Attribute) (onComponent : Bool) (body : List Char) :
    String × Option Expression × List String :=
  let (event, modifiers) := splitModifiers body
  let event := if onComponent then Text.uncapitalize event else Text.lowercase event
  match a.arg with
  | none => ("on", some ⟨event, true, a.nameLoc⟩, modifiers)
  | some part =>
    let (arg, argModifiers) := splitModifiers part.toList
    ("on", some ⟨Text.uncapitalize event ++ ":" ++ arg, true, a.nameLoc⟩,
      modifiers ++ argModifiers)

def ofAttribute (a : Attribute) (onComponent : Bool) : Directive :=
  let exp := a.value.filter fun value => value.isStatic || !value.isEmpty
  let (name, arg, modifiers) :=
    match a.name.toList with
    | 'v' :: '-' :: body => ofBody a body
    | cs =>
      if isEventName a.name then ofEvent a onComponent (cs.drop 2)
      else
        let (key, modifiers) := splitBindKey a.rawName
        ("bind", some ⟨key, true, a.nameLoc⟩, modifiers)
  { name, rawName := a.rawName, arg, exp, modifiers, loc := a.loc }

end Directive

namespace Tag

/-- What follows the mark of a directive in the name of an attribute. -/
def directiveBody? (a : Attribute) : Option (List Char) :=
  match a.name.toList with
  | 'v' :: '-' :: body => some body
  | _ => none

def directive? (t : Tag) (name : String) : Option Directive :=
  t.attributes.findSome? fun a =>
    let d := Directive.ofAttribute a t.isComponent
    if (directiveBody? a).isSome && d.name == name then some d else none

/-- Whether the name of an attribute starts like one of the given directives. -/
def hasDirective (t : Tag) (names : List String) : Bool :=
  t.attributes.any fun a =>
    (directiveBody? a).any fun body => names.contains (Directive.splitModifiers body).1

/-- Whether the tag is a `template` for a slot. Its other directives are about the slot. -/
def isTemplateSlot (t : Tag) : Bool :=
  t.type == .template && t.hasDirective ["slot"]

end Tag

end JsxTemplate
