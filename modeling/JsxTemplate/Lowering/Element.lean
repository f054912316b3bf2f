import JsxTemplate.Html.Nesting
import JsxTemplate.Lowering.Directive

/-!
# Elements and components

An element becomes markup. What cannot be part of the markup is set by operations, at the place in the
block that was noted when the walk came to the element, so that the elements around others come first.
A component becomes an operation that holds its properties and slots.
-/

namespace JsxTemplate

namespace Property

def sameKey (a b : Property) : Bool :=
  a.key.isStatic && b.key.isStatic && a.key.content == b.key.content

def isMerged (p : Property) : Bool :=
  p.key.content == "class" || p.key.content == "style"

/-- Add a property, unless one of that key is there, to which the values may be added. -/
def addUnique (p : Property) : List Property → List Property
  | [] => [p]
  | known :: ps =>
    if sameKey known p then
      if p.isMerged then { known with values := known.values ++ p.values } :: ps else known :: ps
    else known :: addUnique p ps

def unique (properties : List Property) : List Property :=
  properties.foldl (fun known p => addUnique p known) []

/-- Whether a property can be part of the markup, given the keys of those before it that cannot. -/
def isFoldable (dynamicKeys : List String) (p : Property) : Bool :=
  p.key.isStatic && p.modifier.isNone && !dynamicKeys.contains p.key.content
    && match p.values with
      | [value] => value.isStatic
      | _ => false

def markup (p : Property) : String :=
  let value := (p.values.map Expression.content).headD ""
  " " ++ p.key.content ++ if value.isEmpty then "" else "=\"" ++ Html.escapeAttr value ++ "\""

end Property

inductive Properties where
  | fixed (properties : List Property)
  | grouped (groups : List PropertyGroup) (expressions : List Expression)

def Properties.groups : Properties → List PropertyGroup
  | .fixed properties => [.fixed properties]
  | .grouped groups _ => groups

structure PropertyDraft where
  groups : List PropertyGroup
  expressions : List Expression
  last : List Property

namespace PropertyDraft

def flush (d : PropertyDraft) : PropertyDraft :=
  if d.last.isEmpty then d
  else { d with groups := d.groups ++ [.fixed (Property.unique d.last)], last := [] }

def addObject (d : PropertyDraft) (value : Expression) (handler : Bool) : PropertyDraft :=
  let d := { d with expressions := d.expressions ++ [value] }.flush
  { d with groups := d.groups ++ [.object value handler] }

/-- Add a property. On a component, a property whose key is not known makes a group of its own. -/
def add (d : PropertyDraft) (onComponent : Bool) (p : Property) : PropertyDraft :=
  let d := { d with expressions := d.expressions ++ p.key :: p.values }
  if onComponent && !p.key.isStatic then
    let d := d.flush
    { d with groups := d.groups ++ [.computed p] }
  else { d with last := d.last ++ [p] }

def finish (d : PropertyDraft) : Properties :=
  if !d.groups.isEmpty || d.last.any fun p => !p.key.isStatic then
    .grouped d.flush.groups d.expressions
  else .fixed (Property.unique d.last)

end PropertyDraft

namespace Lower

/-- What a directive makes of an attribute. A directive that is not known is carried out at run time. -/
def propertyOf (extensions : Extensions) (d : Directive) (tag : Tag) (children : List Node) :
    Lower (Option Property) := do
  match directiveStep? extensions d.name with
  | some step => step d tag children
  | none =>
    if !isBuiltinDirective d.name then
      let name := "v" ++ Text.capitalize (Text.camelize d.name)
      addDirective name
      let element ← reference
      addOperation (.directive ⟨element, d, name, false, none⟩)
    return none

/-- Gather one directive without argument that stands for the entries of an object. -/
def gatherObject (d : Directive) (tag : Tag) (draft : PropertyDraft) (cursor : Cursor) :
    Lower (PropertyDraft × Cursor) := do
  match d.exp with
  | none =>
    report (if d.name == "bind" then .bindNoExpression else .onNoExpression) (some d.loc)
    return (draft, cursor)
  | some e =>
    if d.name == "bind" || tag.isComponent then
      return (draft.addObject e (d.name == "on"), cursor)
    else
      let element ← reference
      let cursor ← registerEffect [e] (.setEvents element e) cursor
      return (draft, cursor)

def gatherItem (extensions : Extensions) (tag : Tag) (children : List Node) (item : TagItem)
    (draft : PropertyDraft) (cursor : Cursor) : Lower (PropertyDraft × Cursor) := do
  match item with
  | .spread e _ => return (draft.addObject e false, cursor)
  | .attribute a =>
    let d := Directive.ofAttribute a tag.isComponent
    if d.arg.isNone && (d.name == "bind" || d.name == "on") then gatherObject d tag draft cursor
    else if tag.name == "component" && d.name == "bind" && d.staticArg? == some "is" then
      return (draft, cursor)
    else
      match ← propertyOf extensions d tag children with
      | none => return (draft, cursor)
      | some p => return (draft.add tag.isComponent p, cursor)

def gatherItems (extensions : Extensions) (tag : Tag) (children : List Node) :
    List TagItem → PropertyDraft → Cursor → Lower (PropertyDraft × Cursor)
  | [], draft, cursor => return (draft, cursor)
  | item :: items, draft, cursor => do
    let (draft, cursor) ← gatherItem extensions tag children item draft cursor
    gatherItems extensions tag children items draft cursor

def propertiesOf (extensions : Extensions) (tag : Tag) (children : List Node) (cursor : Cursor) :
    Lower (Properties × Cursor) := do
  let (draft, cursor) ← gatherItems extensions tag children tag.items ⟨[], [], []⟩ cursor
  return (draft.finish, cursor)

/-- Write properties into the markup of a tag, or set them by operations. A property does not go into
the markup behind one of the same key that is set by an operation. -/
def writeProperties (tag : Tag) :
    List Property → (dynamicKeys : List String) → Cursor → Lower String
  | [], _, _ => return ""
  | p :: ps, dynamicKeys, cursor => do
    if p.isFoldable dynamicKeys then
      let rest ← writeProperties tag ps dynamicKeys cursor
      return p.markup ++ rest
    else
      let element ← reference
      let cursor ← registerEffect p.values (.setProperty element p tag.name) cursor
      writeProperties tag ps (dynamicKeys ++ [p.key.content]) cursor

/-- Whether the parser of a browser would move an element out of its parent. -/
def isMisplaced (tag : Tag) : Lower Bool := do
  match (← parentNode).bind Visited.tag? with
  | some parent => return parent.type == .element && !Html.isValidNesting parent.name tag.name
  | none => return false

/-- The attributes in the markup of an element. The other properties are set by operations. -/
def attributesOf (tag : Tag) (properties : Properties) (cursor : Cursor) : Lower String := do
  match properties with
  | .grouped groups expressions =>
    let element ← reference
    let _ ← registerEffect expressions (.setProperties element groups tag.name) cursor
    return ""
  | .fixed properties => writeProperties tag properties [] cursor

def elementMarkup (tag : Tag) (attributes inner : String) : String :=
  let closing := if Html.isVoidTag tag.name then "" else "</" ++ tag.name ++ ">"
  "<" ++ tag.name ++ attributes ++ ">" ++ inner ++ closing

def takeChildTemplates : Lower String := do
  let inner := String.join (← get).frame.childTemplates
  setChildTemplates []
  return inner

def pushPiece (template : String) : Lower (Option Nat) := do
  if (← get).discarding then return none
  return some (← pushTemplate template)

/-- Put the markup of an element in its place, or insert the element at run time if it cannot stand
there. -/
def placeElement (tag : Tag) (template : String) : Lower Unit := do
  if ← isMisplaced tag then
    let _ ← reference
    let index ← pushPiece template
    modifyPlan fun p => { p with template := index, insert := true, nonTemplate := true }
  else modifyFrame fun f => { f with template := f.template ++ template }

def lowerElement (tag : Tag) (properties : Properties) (singleRoot : Bool) (cursor : Cursor) :
    Lower Unit := do
  let attributes ← attributesOf tag properties cursor
  let inner ← takeChildTemplates
  modifyFrame fun f => { f with rootTemplate := f.rootTemplate || singleRoot }
  placeElement tag (elementMarkup tag attributes inner)

/-- What says at run time which component a tag stands for. -/
def dynamicComponent? (tag : Tag) : Option Expression :=
  if tag.name == "component" then (tag.find? "is").bind Attribute.value else none

def noteComponent (tag : Tag) : Lower Unit :=
  if (dynamicComponent? tag).isNone then addComponent tag.name else return ()

def lowerComponent (tag : Tag) (properties : Properties) (singleRoot : Bool) : Lower Unit := do
  noteComponent tag
  modifyPlan fun p => { p with nonTemplate := true, insert := true }
  let id ← reference
  let slots ← takeSlots
  let root := singleRoot && (← get).loopDepth == 0
  let once ← inOnce
  let use : ComponentUse :=
    { id, tag := tag.name, groups := properties.groups, slots, root, once
      dynamic := dynamicComponent? tag }
  modifyPlan fun p => { p with operation := some (.component use none) }

def elementStep : Lower (List Exit) := do
  let block := (← get).block
  return [.element ⟨some block.effects.length, some block.operations.length⟩]

def exitElement (extensions : Extensions) (cursor : Cursor) : Lower Unit := do
  match ← node with
  | some (.node path (.element tag children)) =>
    if tag.type == .template then return ()
    note (.gathered path)
    let (properties, cursor) ← propertiesOf extensions tag children cursor
    let singleRoot ← isSingleRoot
    if tag.isComponent then lowerComponent tag properties singleRoot
    else lowerElement tag properties singleRoot cursor
  | _ => return ()

end Lower

end JsxTemplate
