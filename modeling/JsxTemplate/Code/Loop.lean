import JsxTemplate.Code.Expression
import JsxTemplate.Loop.Binding
import JsxTemplate.Loop.Selector

/-!
# Loops

The value, the key and the index of an item are read from the parameters of the function that renders
the item.

In a loop with a key, something that compares the key with a value from outside is given to a selector,
which is made once for the whole loop: when the value changes, it runs only for the two items for which
the comparison does. What depends on the key alone never changes, and runs once.
-/

namespace JsxTemplate

namespace LoopHead

/-- The names of a loop, each of which stands for itself. -/
def shadows (head : LoopHead) : List (String × Option String) :=
  head.names.map fun name => (name, none)

def parameters (head : LoopHead) : Code :=
  Code.loopParameters (nameOf head.value) (nameOf head.key) (nameOf head.index)

end LoopHead

inductive LoopEffect where
  | regular
  /-- When the comparison of the key with a value changes. -/
  | selector (value : Expression)
  | keyOnly
  deriving DecidableEq, Repr

namespace LoopEffect

/-- When the operations of an effect with the given expressions are run. Only a single expression in a
loop with a key is looked at. -/
def ofExpressions (optimize : Bool) (head : LoopHead) (key : Option Expression) :
    List Expression → LoopEffect
  | [e] =>
    match optimize, key with
    | true, some key =>
      match Loop.selector? e.content key.content head.names.contains with
      | some span => .selector (e.sub span.start span.stop)
      | none => if Loop.isKeyOnly e.content key.content then .keyOnly else .regular
    | _, _ => .regular
  | _ => .regular

def value? : LoopEffect → Option Expression
  | .selector value => some value
  | _ => none

end LoopEffect

namespace Code

def selectorName (id index : Nat) : String :=
  "_selector" ++ toString id ++ "_" ++ toString index

def selectorDeclarations (id count : Nat) : Code :=
  (List.range count).flatMap fun i => [.code ("let " ++ selectorName id i), .newline]

/-- The function that makes the selectors of a loop, if there are any. -/
def selectorSetup (id : Nat) (values : List Code) : Option Code :=
  if values.isEmpty then none
  else
    let assignments := values.zipIdx.flatMap fun (value, i) =>
      .newline :: .code (selectorName id i ++ " = ")
        :: call "createSelector" [some (.code "() => " :: value)]
    some (.code "(\x7b createSelector \x7d) => \x7b" :: .indent :: assignments
      ++ [.dedent, .newline, .code "\x7d"])

end Code

namespace Emit

def bindingCode (item : String) (b : LoopBinding) : Emit String := do
  let path := item ++ ".value" ++ b.path
  match b.helper with
  | none => return path
  | some (.rest excluded) =>
    return (← helper "getRestElement") ++ "(" ++ path ++ ", " ++ excluded ++ ")"
  | some (.default value) =>
    return (← helper "getDefaultValue") ++ "(" ++ path ++ ", " ++ value ++ ")"

def bindingEntry (item : String) (b : LoopBinding) : Emit (String × Option String) := do
  return (b.name, some (← bindingCode item b))

/-- The parameters of the function that renders an item, and what stands for the names of the loop. -/
structure LoopScope where
  parameters : List String
  names : List (String × Option String)

/-- The parameter for the key or the index of an item, and what stands for its name. -/
def LoopScope.ofName (parameter : String) : Option String → LoopScope
  | none => ⟨[], []⟩
  | some name => ⟨[parameter], [(name, some (parameter ++ ".value")), (parameter, none)]⟩

def enterLoop (head : LoopHead) : Emit LoopScope := do
  let depth := toString (← enterScope)
  let item := "_for_item" ++ depth
  let bindings ← head.itemBindings.mapM (bindingEntry item)
  let key := LoopScope.ofName ("_for_key" ++ depth) (LoopHead.nameOf head.key)
  let index := LoopScope.ofName ("_for_index" ++ depth) (LoopHead.nameOf head.index)
  return ⟨item :: key.parameters ++ index.parameters,
    (item, none) :: bindings ++ key.names ++ index.names⟩

def loopKey (head : LoopHead) : Option Expression → Emit (Option Code)
  | none => return none
  | some e => do
    let key ← withNames head.shadows (expression e)
    return some (head.parameters ++ .code " => (" :: key ++ [.code ")"])

/-- The flags of a loop: whether it is all that its parent holds, whether an item is a component, and
whether the items are read only once. -/
def loopFlags (onlyChild component once : Bool) : Nat :=
  onlyChild.toNat + 2 * component.toNat + 4 * once.toNat

def createLoop (id : Nat) (source : Code) (render : Listing) (key : Option Code) (flags : Nat)
    (selectors : List Code) : Emit Listing := do
  let name ← helper "createFor"
  let call := Listing.callWithBlanks "undefined" name
    [some (.ofCode (Code.getter source)), some render, key.map .ofCode,
      if flags == 0 then none else some [.text (toString flags)],
      (Code.selectorSetup id selectors).map .ofCode]
  let declarations := Listing.ofCode (Code.selectorDeclarations id selectors.length)
  return .newline :: declarations ++ .make id :: call

end Emit

end JsxTemplate
