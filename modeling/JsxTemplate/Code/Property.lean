import JsxTemplate.Code.Expression
import JsxTemplate.Html.Tag
import JsxTemplate.Script.Shape
import JsxTemplate.Text.Case

/-!
# Properties, listeners and directives
-/

namespace JsxTemplate

/-! ## Setters -/

/-- The function that sets a property, and whether it is told the key. -/
structure Setter where
  helper : String
  takesKey : Bool
  deriving DecidableEq, Repr

namespace Setter

/-- The function for a property with a function of its own. -/
def special? (tag key : String) : Option Setter :=
  if key == "value" && Html.canSetValueDirectly tag then some ⟨"setValue", false⟩
  else if key == "class" then some ⟨"setClass", false⟩
  else if key == "style" then some ⟨"setStyle", false⟩
  else if key == "innerHTML" then some ⟨"setHtml", false⟩
  else if key == "textContent" then some ⟨"setText", false⟩
  else none

/-- Whether a key has, somewhere in it, the word of an accessibility property before a capital. -/
def isAria : List Char → Bool
  | 'a' :: 'r' :: 'i' :: 'a' :: c :: cs => c.isUpper || isAria ('r' :: 'i' :: 'a' :: c :: cs)
  | _ :: cs => isAria cs
  | [] => false

def choose (tag key : String) (modifier : Option PropertyModifier) : Setter :=
  let tag := Text.lowercase tag
  match modifier with
  | some .prop => (special? tag key).getD ⟨"setDOMProp", true⟩
  | some .attr => ⟨"setAttr", true⟩
  | none =>
    match special? tag key with
    | some setter => setter
    | none =>
      if isAria key.toList then ⟨"setDOMProp", true⟩
      else if Html.isSvgTag tag || Html.mustSetAsAttribute tag key || key.toList.contains '-' then
        ⟨"setAttr", true⟩
      else ⟨"setProp", true⟩

end Setter

/-! ## Keys -/

namespace Property

/-- What the options of a listener add to its key. -/
def keySuffix (p : Property) : String :=
  match p.handlerModifiers with
  | none => ""
  | some m =>
    (if m.options.capture then "Capture" else "") ++ (if m.options.once then "Once" else "")
      ++ (if m.options.passive then "Passive" else "")

def keyMark (p : Property) : String :=
  match p.modifier with
  | some .prop => "."
  | some .attr => "^"
  | none => ""

def fixedKey (p : Property) : String :=
  let name := if p.handler then Text.handlerKey (Text.camelize p.key.content) else p.key.content
  p.keyMark ++ name ++ p.keySuffix

end Property

/-- The directive on a node that an operation stands for, unless it comes with the library. -/
def Operation.directiveOn? (id : Nat) : Operation → Option DirectiveUse
  | .directive use => if !use.builtin && use.element == id then some use else none
  | _ => none

/-- Whether another listener is at the document, for the same event and element. -/
def Listener.rivals (l other : Listener) : Bool :=
  other.delegate && other.element == l.element && other.key.content == l.key.content

def objectKey (name : String) : String :=
  if Text.isPlainName name then name else Text.quote name

/-- The entries of an object that says which modifiers are present. -/
def modifierEntries (modifiers : List String) : String :=
  ", ".intercalate (modifiers.map fun m => objectKey m ++ ": true")

def modifierObject (modifiers : List String) : String :=
  "\x7b " ++ modifierEntries modifiers ++ " \x7d"

namespace Emit

/-- Code, or the result of a helper for it. -/
def wrapIf (wrap : Bool) (name : String) (code : Code) : Emit Code :=
  if wrap then callHelper name [some code] else return code

def propertyKey (p : Property) : Emit Code := do
  if p.key.isStatic then
    return [.mapped (objectKey p.fixedKey) p.key.loc none]
  else
    let key ← expression p.key
    let key ← wrapIf p.camelizeKey "camelize" key
    let key ← wrapIf p.handler "toHandlerKey" key
    let mark := if p.keyMark.isEmpty then [] else Code.text (Text.quote p.keyMark ++ " + ")
    let suffix := if p.keySuffix.isEmpty then [] else Code.text (" + " ++ Text.quote p.keySuffix)
    return .code "[" :: mark ++ key ++ suffix ++ [.code "]"]

def propertyValue (values : List Expression) : Emit Code := do
  let names ← names
  match values with
  | [value] => return value.code names
  | values => return Code.list .array (values.map fun v => v.code names)

def setProperty (element : Nat) (p : Property) (tag : String) : Emit Listing := do
  let setter := Setter.choose tag p.key.content p.modifier
  let key ← expression p.key
  let value ← propertyValue p.values
  let key := if setter.takesKey then [some (.ofCode key)] else []
  statement setter.helper (some (.use (.node element)) :: key ++ [some (.ofCode value)])

def objectEntry (p : Property) : Emit Code := do
  let key ← propertyKey p
  let value ← propertyValue p.values
  return key ++ .code ": " :: value

def groupObject : PropertyGroup → Emit Code
  | .fixed ps => do return Code.list .object (← ps.mapM objectEntry)
  | .computed p => do return Code.list .object [← objectEntry p]
  | .object value _ => expression value

def setProperties (element : Nat) (groups : List PropertyGroup) (tag : String) : Emit Listing := do
  let objects ← groups.mapM groupObject
  let isSvg := Html.isSvgTag (Text.lowercase tag)
  statement "setDynamicProps"
    [some (.use (.node element)), some (.ofCode (Code.list .array objects)),
      if isSvg then some [.text "true"] else none]

/-! ## Listeners -/

def handlerBody (value : Option Expression) (extraWrap : Bool) : Emit Code := do
  match value.filter fun e => !e.isEmpty with
  | none => return [.code "() => \x7b\x7d"]
  | some e =>
    let code ← expression e
    if Script.isMember e.content then
      return if extraWrap then code else .code "e => " :: code ++ [.code "(e)"]
    else if Script.isFunction e.content then return code
    else if e.content.toList.contains ';' then
      return .code "() => \x7b" :: code ++ [.code "\x7d"]
    else return Code.getter code

def guarded (name : String) (guards : List String) (code : Code) : Emit Code :=
  if guards.isEmpty then return code
  else callHelper name [some code, some (.text (Text.quoteList guards))]

def handler (value : Option Expression) (modifiers : Option EventModifiers) (extraWrap : Bool) :
    Emit Code := do
  let code ← handlerBody value extraWrap
  let code ← guarded "withModifiers" ((modifiers.map EventModifiers.nonKeys).getD []) code
  let code ← guarded "withKeys" ((modifiers.map EventModifiers.keys).getD []) code
  return if extraWrap then .code "() => " :: code else code

def eventName (l : Listener) : Emit Code := do
  let name ← expression l.key
  match l.keyOverride with
  | none => return name
  | some (find, replacement) =>
    let wrapped : Code := .code "(" :: name ++ [.code ")"]
    let choice := " === " ++ Text.quote find ++ " ? " ++ Text.quote replacement ++ " : "
    return wrapped ++ .code choice :: wrapped

/-- Whether a block has several listeners at the document for the event and element of a listener. -/
def hasRival (l : Listener) (block : Block) : Bool :=
  1 < block.operations.countP fun
    | .setEvent other => l.rivals other
    | _ => false

def listenerOptions (l : Listener) : Option Code :=
  let entries :=
    (if l.effect then [Code.text "effect: true"] else [])
      ++ (if l.modifiers.options.capture then [Code.text "capture: true"] else [])
      ++ (if l.modifiers.options.once then [Code.text "once: true"] else [])
      ++ if l.modifiers.options.passive then [Code.text "passive: true"] else []
  if entries.isEmpty then none else some (Code.list .objectLines entries)

/-- Add a listener to an element. A listener at the document is a field of the element, unless there are
several of them. -/
def setEvent (l : Listener) : Emit Listing := do
  let name ← eventName l
  let code ← handler l.value (some l.modifiers) false
  if l.delegate then delegate l.key.content
  if l.delegate && !(← currentBlock).any (hasRival l) then
    return .newline :: .use (.node l.element) (".$evt" ++ l.key.content ++ " = ")
      :: Listing.ofCode code
  else
    statement (if l.delegate then "delegate" else "on")
      [some (.use (.node l.element)), some (.ofCode name), some (.ofCode code),
        (listenerOptions l).map .ofCode]

def setEvents (element : Nat) (value : Expression) : Emit Listing := do
  let value ← expression value
  statement "setDynamicEvents" [some (.use (.node element)), some (.ofCode value)]

/-! ## Directives -/

def modelHandler (e : Expression) : Emit Code := do
  return .code "_value => (" :: e.assignment (← names) "_value" ++ [.code ")"]

def modelHelper : ModelType → String
  | .text => "applyTextModel"
  | .radio => "applyRadioModel"
  | .checkbox => "applyCheckboxModel"
  | .select => "applySelectModel"
  | .dynamic => "applyDynamicModel"

def modifierArgument (modifiers : List String) : Option Code :=
  if modifiers.isEmpty then none else some (.text (modifierObject modifiers))

/-- Carry out a directive that comes with the library. Others are written where their element is made. -/
def builtinDirective (use : DirectiveUse) : Emit Listing := do
  match use.builtin, use.directive.exp with
  | true, some e =>
    let element := some (Listing.use (.node use.element))
    let value := some (Listing.ofCode (Code.getter (← expression e)))
    if use.name == "show" then statement "applyVShow" [element, value]
    else if use.name == "model" then
      let handler ← modelHandler e
      statement (modelHelper (use.modelType.getD .text))
        [element, value, some (.ofCode handler),
          (modifierArgument use.directive.modifiers).map .ofCode]
    else return []
  | _, _ => return []

def directiveEntry (use : DirectiveUse) : Emit Code := do
  let name ← expression (.ofScript use.name)
  let value ← expression? use.directive.exp
  let argument ← expression? use.directive.arg
  return Code.listWithBlanks .array "void 0"
    [some name, value.map (.code "() => " :: ·), argument,
      modifierArgument use.directive.modifiers]

/-- The directives of an element in the current block that do not come with the library. -/
def directivesOf (id : Nat) : Emit Listing := do
  let operations := ((← currentBlock).map Block.operations).getD []
  let uses := operations.filterMap (Operation.directiveOn? id)
  if uses.isEmpty then return []
  else
    let entries ← uses.mapM directiveEntry
    statement "withVaporDirectives"
      [some (.use (.node id)), some (.ofCode (Code.list .array entries))]

end Emit

end JsxTemplate
