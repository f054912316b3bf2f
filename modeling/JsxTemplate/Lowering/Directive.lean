import JsxTemplate.Html.Escape
import JsxTemplate.Html.Event
import JsxTemplate.Html.Tag
import JsxTemplate.Lowering.Step
import JsxTemplate.Script.Shape

/-!
# Directives on elements

What the directives of this library make of an attribute. A directive gives a property, or it adds
operations to the block, or it changes the markup inside the element.
-/

namespace JsxTemplate

def Directive.propertyModifier? (d : Directive) : Option PropertyModifier :=
  if d.hasModifier "prop" then some .prop
  else if d.hasModifier "attr" then some .attr
  else none

/-- The value of a binding: a literal counts as a plain string, and a name alone stands for a true
value. -/
def Directive.boundValue (d : Directive) (tag : Tag) : Expression :=
  match d.exp with
  | some e => if e.isStatic then e else
    match e.literal? with
    | some text => ⟨text, true, e.loc⟩
    | none => e
  | none => if tag.isComponent then ⟨"true", false, d.loc⟩ else ⟨"", true, d.loc⟩

def Directive.boundProperty? (d : Directive) (tag : Tag) : Option Property :=
  d.arg.bind fun key =>
    if key.isStatic && isReservedAttribute key.content then none
    else
      let camel := d.hasModifier "camel"
      let key' := if camel && key.isStatic then { key with content := Text.camelize key.content } else key
      some { Property.plain key' (d.boundValue tag) with
        modifier := d.propertyModifier?
        camelizeKey := camel && !key.isStatic }

namespace EventModifiers

/-- The guards that are about a mouse button, the state of the keyboard, or the event itself. -/
def isGuard (modifier : String) : Bool :=
  ["stop", "prevent", "self", "ctrl", "shift", "alt", "meta", "exact", "middle"].contains modifier

/-- Add a modifier of a listener for the event `key`. An arrow key and a mouse button may have the same
name. -/
def add (key : Expression) (m : EventModifiers) (modifier : String) : EventModifiers :=
  if modifier == "passive" then { m with options := { m.options with passive := true } }
  else if modifier == "once" then { m with options := { m.options with once := true } }
  else if modifier == "capture" then { m with options := { m.options with capture := true } }
  else if modifier == "left" || modifier == "right" then
    if !key.isStatic then { m with keys := m.keys ++ [modifier], nonKeys := m.nonKeys ++ [modifier] }
    else if Html.isKeyboardEvent key.content then { m with keys := m.keys ++ [modifier] }
    else { m with nonKeys := m.nonKeys ++ [modifier] }
  else if isGuard modifier then { m with nonKeys := m.nonKeys ++ [modifier] }
  else { m with keys := m.keys ++ [modifier] }

def ofList (key : Expression) (modifiers : List String) : EventModifiers :=
  modifiers.foldl (add key) ⟨[], [], ⟨false, false, false⟩⟩

/-- A click with another button than the first is an event of another name. -/
def renamedClick? (m : EventModifiers) : Option String :=
  if m.nonKeys.contains "right" then some "contextmenu"
  else if m.nonKeys.contains "middle" then some "mouseup"
  else none

end EventModifiers

def isClick (key : Expression) : Bool :=
  key.isStatic && Text.lowercase key.content == "click"

namespace Lower

def listen (d : Directive) (tag : Tag) : Lower (Option Property) := do
  match d.arg with
  | none => return none
  | some key =>
    if d.exp.isNone && d.modifiers.isEmpty then report .onNoExpression (some d.loc)
    let modifiers := EventModifiers.ofList key d.modifiers
    let renamed := modifiers.renamedClick?
    let keyOverride := if key.isStatic then none else renamed.map fun name => ("click", name)
    let key := match renamed with
      | some name => if isClick key then { key with content := name } else key
      | none => key
    if tag.isComponent then
      let value := d.exp.getD ⟨"() => \x7b\x7d", false, d.loc⟩
      return some { Property.plain key value with handler := true, handlerModifiers := some modifiers }
    else
      let delegate := key.isStatic && modifiers.options.isEmpty && Html.isDelegatedEvent key.content
      let element ← reference
      let listener : Listener :=
        { element, key, value := d.exp, modifiers, keyOverride, delegate, effect := !key.isStatic }
      addEffect [key] (.setEvent listener)
      return none

def checkValue (tag : Tag) : Lower Unit := do
  match tag.find? "value" with
  | some a => report .modelUnnecessaryValue (some a.loc)
  | none => return ()

def inputModelType? (tag : Tag) : Lower (Option ModelType) := do
  match tag.find? "type" with
  | none =>
    if tag.hasSpread then return some .dynamic
    checkValue tag
    return some .text
  | some a =>
    match a.value with
    | some value =>
      if !value.isStatic then return some .dynamic
      match value.content with
      | "radio" => return some .radio
      | "checkbox" => return some .checkbox
      | "file" =>
        report .modelOnFileInput (some tag.loc)
        return none
      | _ =>
        checkValue tag
        return some .text
    | none =>
      checkValue tag
      return some .text

/-- The kind of input of an element. There is none if it takes no input. -/
def modelType? (tag : Tag) : Lower (Option ModelType) := do
  if tag.name == "input" || (← get).options.isCustomElement tag.name then inputModelType? tag
  else if tag.name == "select" then return some .select
  else if tag.name == "textarea" then
    checkValue tag
    return some .text
  else
    report .modelOnInvalidElement (some tag.loc)
    return none

/-- A model, which must be something that can be assigned to. -/
def model (d : Directive) (tag : Tag) : Lower (Option Property) := do
  match d.exp with
  | none =>
    report .modelNoExpression (some d.loc)
    return none
  | some e =>
    let content := Text.trim e.content
    if e.isStatic || content.isEmpty || !Script.isMember content then
      report .modelMalformed (some e.loc)
      return none
    if Text.isPlainName content && (← isInScope content) then
      report .modelOnScopeVariable (some e.loc)
      return none
    if tag.isComponent then
      let key := d.arg.getD (.ofString "modelValue")
      return some { Property.plain key e with model := true, modelModifiers := d.modifiers }
    match d.arg with
    | some arg => report .modelArgOnElement (some arg.loc)
    | none => pure ()
    match ← modelType? tag with
    | none => return none
    | some modelType =>
      let element ← reference
      addOperation (.directive ⟨element, d, "model", true, some modelType⟩)
      return none

def visibility (d : Directive) : Lower (Option Property) := do
  if d.exp.isNone then
    report .showNoExpression (some d.loc)
    return none
  let element ← reference
  addOperation (.directive ⟨element, d, "show", true, none⟩)
  return none

/-- The value of a directive about what is inside an element. A missing one and children beside it are
reported. -/
def contentValue (d : Directive) (children : List Node) (missing withChildren : ErrorCode) :
    Lower Expression := do
  let value ← match d.exp with
    | some e => pure e
    | none => do
      report missing (some d.loc)
      pure ⟨"", true, d.loc⟩
  if !children.isEmpty then
    report withChildren (some d.loc)
    setChildTemplates []
  return value

def innerHtml (d : Directive) (children : List Node) : Lower (Option Property) := do
  let value ← contentValue d children .htmlNoExpression .htmlWithChildren
  let element ← reference
  addEffect [value] (.setHtml element value)
  return none

/-- The text inside an element. A literal becomes part of the markup. -/
def innerText (d : Directive) (tag : Tag) (children : List Node) : Lower (Option Property) := do
  let value ← contentValue d children .textNoExpression .textWithChildren
  if Html.isVoidTag tag.name then return none
  match value.literal? with
  | some text =>
    setChildTemplates [Html.escapeText text]
    return none
  | none =>
    setChildTemplates [" "]
    let element ← reference
    if !tag.isComponent then addOperation (.getTextChild element)
    addEffect [value] (.setText element [value] true)
    return none

/-- The directives of this library that are about a single element. -/
def directiveSteps : List (String × DirectiveStep) :=
  [("bind", fun d tag _ => return d.boundProperty? tag),
    ("on", fun d tag _ => listen d tag),
    ("model", fun d tag _ => model d tag),
    ("show", fun d _ _ => visibility d),
    ("html", fun d _ children => innerHtml d children),
    ("text", innerText)]

def directiveStep? (extensions : Extensions) (name : String) : Option DirectiveStep :=
  ((extensions.directives ++ directiveSteps).find? fun d => d.1 == name).map Prod.snd

end Lower

end JsxTemplate
