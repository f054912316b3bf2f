import JsxTemplate.Template.Directive

/-!
# Properties, listeners and directives

The parts of a rendering plan that hold no nodes of their own.
-/

namespace JsxTemplate

/-- How a property is set against the usual choice. -/
inductive PropertyModifier where
  | prop
  | attr
  deriving DecidableEq, Repr, Inhabited

structure EventOptions where
  capture : Bool
  once : Bool
  /-- It never stops the default action. -/
  passive : Bool
  deriving DecidableEq, Repr, Inhabited

def EventOptions.isEmpty (o : EventOptions) : Bool :=
  !(o.capture || o.once || o.passive)

structure EventModifiers where
  keys : List String
  nonKeys : List String
  options : EventOptions
  deriving DecidableEq, Repr, Inhabited

structure Property where
  /-- The key: a plain name, or script. -/
  key : Expression
  /-- The values; only a class and a style can have several. -/
  values : List Expression
  modifier : Option PropertyModifier
  /-- Whether the key is put into camel case when it is known. -/
  camelizeKey : Bool
  handler : Bool
  handlerModifiers : Option EventModifiers
  /-- Whether it is a model, which has a listener of its own. -/
  model : Bool
  modelModifiers : List String
  deriving DecidableEq, Repr, Inhabited

def Property.plain (key value : Expression) : Property :=
  { key
    values := [value]
    modifier := none
    camelizeKey := false
    handler := false
    handlerModifiers := none
    model := false
    modelModifiers := [] }

inductive PropertyGroup where
  | fixed (properties : List Property)
  /-- The entries of an object, as properties or as listeners. -/
  | object (value : Expression) (handler : Bool)
  | computed (property : Property)
  deriving DecidableEq, Repr, Inhabited

structure Listener where
  element : Nat
  key : Expression
  value : Option Expression
  modifiers : EventModifiers
  /-- A name of an event, and the name that stands in for it. -/
  keyOverride : Option (String × String)
  delegate : Bool
  effect : Bool
  deriving DecidableEq, Repr, Inhabited

/-- What kind of input a model is bound to. -/
inductive ModelType where
  | text
  | radio
  | checkbox
  | select
  /-- It is known only at run time. -/
  | dynamic
  deriving DecidableEq, Repr, Inhabited

/-- A directive on an element that is carried out at run time. -/
structure DirectiveUse where
  element : Nat
  directive : Directive
  name : String
  builtin : Bool
  modelType : Option ModelType
  deriving DecidableEq, Repr, Inhabited

end JsxTemplate
