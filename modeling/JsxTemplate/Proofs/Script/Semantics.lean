import JsxTemplate.Loop.Binding

/-!
# Taking values apart

What a pattern means when a script runs: the names it binds and the parts of a value they are bound to.
The values and what can be done with them are left open (`Semantics`), so that getters, prototypes and
anything that can be gone through are covered; what throws has no result. Objects and arrays without
behaviour of their own (`Value`) are an instance that can be evaluated.
-/

namespace JsxTemplate.Script

/-- The values of the variables that an expression may read. A variable that is not there, or that has
no value yet, has none. -/
abbrev Scope (V : Type) := String → Option V

/-- What a running script does with values, as far as patterns need it. -/
structure Semantics (V : Type) where
  /-- The value of what is not there. -/
  missing : V
  string : String → V
  /-- A whole number. -/
  number : Nat → V
  /-- Whether properties of a value can be read. -/
  hasProperties : V → Bool
  /-- Whether a value can be gone through. -/
  isIterable : V → Bool
  /-- A property of a value. -/
  get : V → V → Option V
  /-- The value at a place when a value is gone through, which is missing behind the end. -/
  step : V → Nat → Option V
  /-- An array of all values from a place on when a value is gone through. -/
  collect : V → Nat → Option V
  /-- What the method `slice` gives from a place on. -/
  slice : V → Nat → Option V
  /-- An object with all properties of a value but some. -/
  without : V → List V → Option V
  /-- The value of an expression. -/
  evaluate : Scope V → String → Option V

/-- The key of a property as a pattern names it. -/
inductive Key where
  | name (text : String)
  /-- A string, with the literal it is written as. -/
  | string (value literal : String)
  /-- An expression, or a literal that is no string. -/
  | computed (expression : String)
  deriving DecidableEq, Repr

/-- The key of a property of a pattern. -/
def Key.ofTree (script : String) (computed : Bool) (key : Tree) : Key :=
  match key.kind with
  | .string value => .string value (LoopBinding.textOf script key)
  | .name text => if computed then .computed (LoopBinding.textOf script key) else .name text
  | _ => .computed (LoopBinding.textOf script key)

namespace Tree

mutual

/-- The names that a pattern binds, in the order of the source. -/
def boundNames : Tree → List String
  | .node (.binding name) _ _ => [name]
  | .node .objectPattern _ properties => propertyNames properties
  | .node .arrayPattern _ elements => elementNames elements
  | .node .withDefault _ [pattern, _] => boundNames pattern
  | _ => []

def propertyNames : List Tree → List String
  | [] => []
  | .node (.patternProperty _) _ [_, value] :: ps => boundNames value ++ propertyNames ps
  | .node .rest _ [pattern] :: ps => boundNames pattern ++ propertyNames ps
  | _ :: ps => propertyNames ps

def elementNames : List Tree → List String
  | [] => []
  | .node .rest _ [pattern] :: es => boundNames pattern ++ elementNames es
  | e :: es => boundNames e ++ elementNames es

end

end Tree

namespace Semantics

variable {V : Type} [DecidableEq V] (sem : Semantics V)

def key (scope : Scope V) : Key → Option V
  | .name text => some (sem.string text)
  | .string _ literal => sem.evaluate scope literal
  | .computed expression => sem.evaluate scope expression

/-- The variables that an expression in a pattern may read: those outside, and of the names of the pattern
those that are bound already. -/
def inside (outer : Scope V) (names : List String) (bound : List (String × V)) : Scope V := fun name =>
  if name ∈ names then (bound.find? fun b => b.1 == name).map Prod.snd else outer name

section

variable (script : String) (scope : List (String × V) → Scope V)

mutual

/-- The names that a pattern binds, with the parts of a value they are bound to; `bound` are those bound
before, on which the variables in `scope` depend. -/
def bind (bound : List (String × V)) : Tree → V → Option (List (String × V))
  | .node (.binding name) _ _, v => some [(name, v)]
  | .node .objectPattern _ properties, v =>
    if sem.hasProperties v then bindProperties bound [] properties v else none
  | .node .arrayPattern _ elements, v => if sem.isIterable v then bindElements bound 0 elements v else none
  | .node .withDefault _ [pattern, value], v =>
    if v = sem.missing then
      (sem.evaluate (scope bound) (LoopBinding.textOf script value)).bind fun u => bind bound pattern u
    else bind bound pattern v
  | _, _ => none

/-- The names that the properties of a pattern bind; `keys` are the keys of those before them, which are
left out of the rest. The rest has a name. -/
def bindProperties (bound : List (String × V)) (keys : List V) :
    List Tree → V → Option (List (String × V))
  | [], _ => some []
  | .node (.patternProperty computed) _ [key, value] :: ps, v =>
    (sem.key (scope bound) (.ofTree script computed key)).bind fun k => (sem.get v k).bind fun u =>
      (bind bound value u).bind fun new =>
        (bindProperties (bound ++ new) (keys ++ [k]) ps v).map (new ++ ·)
  | [.node .rest _ [.node (.binding name) _ _]], v => (sem.without v keys).map fun u => [(name, u)]
  | _, _ => none

/-- The names that the elements of a pattern bind, the first of which has the given index. -/
def bindElements (bound : List (String × V)) (index : Nat) : List Tree → V → Option (List (String × V))
  | [], _ => some []
  | .node .elision _ _ :: es, v => (sem.step v index).bind fun _ => bindElements bound (index + 1) es v
  | [.node .rest _ [pattern]], v => (sem.collect v index).bind fun u => bind bound pattern u
  | e :: es, v =>
    (sem.step v index).bind fun u => (bind bound e u).bind fun new =>
      (bindElements (bound ++ new) (index + 1) es v).map (new ++ ·)

end

end

/-- The names that a pattern binds to parts of a value, if the variables outside are `outer`. -/
def destructure (outer : Scope V) (script : String) (pattern : Tree) (v : V) : Option (List (String × V)) :=
  sem.bind script (inside outer pattern.boundNames) [] pattern v

end Semantics

/-! ## Objects and arrays -/

/-- Values without behaviour of their own. An object and an array are built up from the empty one. -/
inductive Value where
  | missing
  | string (text : String)
  | number (value : Nat)
  | object
  | entry (key : String) (value rest : Value)
  | array
  | item (value rest : Value)
  deriving DecidableEq, Repr

namespace Value

def isArray : Value → Bool
  | .array | .item _ _ => true
  | _ => false

def get : Value → Value → Option Value
  | .missing, _ => none
  | .entry name value rest, key => if key = .string name then some value else get rest key
  | .item value _, .number 0 => some value
  | .item _ rest, .number (index + 1) => get rest (.number index)
  | _, _ => some .missing

def step : Value → Nat → Option Value
  | .array, _ => some .missing
  | .item value _, 0 => some value
  | .item _ rest, index + 1 => step rest index
  | _, _ => none

def collect : Value → Nat → Option Value
  | .array, _ => some .array
  | .item value rest, 0 => some (.item value rest)
  | .item _ rest, index + 1 => collect rest index
  | _, _ => none

def without : Value → List Value → Option Value
  | .missing, _ => none
  | .entry name value rest, keys =>
    if .string name ∈ keys then without rest keys else (without rest keys).map (.entry name value)
  | _, _ => some .object

/-- The value of a variable, a string or an empty object; other expressions are not evaluated. -/
def evaluate (scope : Scope Value) (expression : String) : Option Value :=
  match readWhole expression with
  | some (.node (.string text) _ _) => some (.string text)
  | some (.node .object _ []) => some .object
  | some (.node (.reference name) _ _) => scope name
  | _ => none

def semantics : Semantics Value where
  missing := .missing
  string := .string
  number := .number
  hasProperties v := v != .missing
  isIterable := isArray
  get := get
  step := step
  collect := collect
  slice := collect
  without := without
  evaluate := evaluate

end Value

end JsxTemplate.Script
