import JsxTemplate.Code.Property
import JsxTemplate.Loop.Binding

/-!
# Components

A component is given its properties and its slots as objects. Properties are functions, so that they
are read only when they are needed; a field `$` holds what is known only at run time.
-/

namespace JsxTemplate

namespace Listing

inductive SlotPart where
  | named (entries : List Listing)
  | source (code : Listing)

def SlotPart.item : SlotPart → Listing
  | .named entries => list .objectLines entries
  | .source code => code

/-- The field for what gives slots at run time, if there is something. -/
def slotSources (parts : List SlotPart) : List Listing :=
  if parts.isEmpty then [] else [.text "$: " :: list .arrayLines (parts.map SlotPart.item)]

def slots : List SlotPart → Option Listing
  | [] => none
  | .named entries :: parts => some (list .objectLines (entries ++ slotSources parts))
  | parts => some (list .objectLines (slotSources parts))

end Listing

namespace Code

/-- An object, with lines for its entries if there are several. -/
def object (entries : List Code) : Code :=
  list (if 1 < entries.length then .objectLines else .object) entries

/-- The field for what gives properties at run time, if there is something. -/
def propertySources (sources : List Code) : List Code :=
  if sources.isEmpty then [] else [.code "$: " :: list .arrayLines sources]

end Code

namespace Emit

/-! ## Properties -/

def modelEvent (p : Property) (value : Expression) : Emit Code := do
  let key ← expression p.key
  let name : Code :=
    if p.key.isStatic then [.code (Text.quote ("onUpdate:" ++ Text.camelize p.key.content))]
    else .code "[\"onUpdate:\" + " :: key ++ [.code "]"]
  let handler ← modelHandler value
  return .code "," :: .newline :: name ++ .code ": () => " :: handler

def modelModifiers (p : Property) : Emit Code := do
  if p.modelModifiers.isEmpty then return []
  else
    let key ← expression p.key
    let name : Code :=
      if p.key.isStatic then [.code (objectKey (p.key.content ++ "Modifiers"))]
      else .code "[" :: key ++ [.code " + \"Modifiers\"]"]
    let value := ": () => (" ++ modifierObject p.modelModifiers ++ ")"
    return .code "," :: .newline :: name ++ [.code value]

def modelEntries (p : Property) : Emit Code := do
  match p.model, p.values with
  | true, value :: _ =>
    let event ← modelEvent p value
    let modifiers ← modelModifiers p
    return event ++ modifiers
  | _, _ => return []

def componentValue (p : Property) (asGetter : Bool) : Emit Code := do
  if p.handler then handler p.values.head? p.handlerModifiers true
  else
    let value ← propertyValue p.values
    return if asGetter then Code.getter value else value

def componentEntry (asGetter : Bool) (p : Property) : Emit Code := do
  let key ← propertyKey p
  let value ← componentValue p asGetter
  let model ← modelEntries p
  return key ++ .code ": " :: value ++ model

def propertySource : PropertyGroup → Emit (Option Code)
  | .fixed [] => return none
  | .fixed ps => do return some (Code.object (← ps.mapM (componentEntry true)))
  | .computed p => do
    let entry ← componentEntry false p
    return some (Code.getter (Code.list .object [entry]))
  | .object value handler => do
    let value ← expression value
    let value ← wrapIf handler "toHandlers" value
    return some (Code.getter value)

/-- The object with the properties of a component: the fields of a first group with known names, and
what gives properties at run time. -/
def propertyObject (fixed : List Property) (groups : List PropertyGroup) : Emit Code := do
  let sources ← groups.mapM propertySource
  let entries ← fixed.mapM (componentEntry true)
  return Code.object (entries ++ Code.propertySources (sources.filterMap id))

def componentProperties : List PropertyGroup → Emit (Option Code)
  | [] => return none
  | [.fixed []] => return none
  | .fixed ps :: groups => do return some (← propertyObject ps groups)
  | groups => do return some (← propertyObject [] groups)

/-! ## Components -/

def componentTag (tag : String) (dynamic : Option Expression) : Emit Code := do
  match dynamic with
  | none => expression (.ofScript tag)
  | some e =>
    let value ← expression e
    if e.isStatic then callHelper "resolveDynamicComponent" [some value]
    else return Code.getter value

def componentHelper (dynamic : Option Expression) (withFallback : Bool) : String :=
  if dynamic.any fun e => !e.isStatic then "createDynamicComponent"
  else if withFallback then "createComponentWithFallback"
  else "createComponent"

def createComponent (id : Nat) (dynamic : Option Expression) (root once : Bool)
    (tag : Code) (properties : Option Code) (slots : Option Listing) : Emit Listing := do
  let call ← callWith (componentHelper dynamic (← get).options.withFallback)
    [some (.ofCode tag), properties.map .ofCode, slots,
      if root then some [.text "true"] else none, if once then some [.text "true"] else none]
  let directives ← directivesOf id
  return .newline :: .make id :: call ++ directives

/-! ## Slots -/

/-- What stands for the names that a slot is given, and the parameter of its function. A pattern of
names has a parameter of its own, and the names are its fields. -/
structure SlotScope where
  names : List (String × Option String)
  parameter : Option String
  numbered : Bool

/-- What stands for the names of a pattern, if the parameter has the number `depth`. -/
def SlotScope.ofPattern (depth : Nat) (pattern : String) : SlotScope :=
  let parameter := "_slotProps" ++ toString depth
  { names := (LoopBinding.ofItem pattern).map fun b =>
      (b.name, some (parameter ++ "[" ++ Text.quote b.name ++ "]"))
    parameter := some parameter
    numbered := true }

def enterSlot (pattern : Option Expression) : Emit SlotScope := do
  let text := (pattern.map fun e => Text.trim e.content).getD ""
  if Text.isPlainName text then return ⟨[(text, none)], some text, false⟩
  else if text.isEmpty then return ⟨[], none, false⟩
  else return SlotScope.ofPattern (← enterScope) text

def exitSlot (scope : SlotScope) : Emit Unit :=
  if scope.numbered then exitScope else return ()

end Emit

end JsxTemplate
