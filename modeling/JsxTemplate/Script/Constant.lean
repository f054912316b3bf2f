import JsxTemplate.Expression
import JsxTemplate.Script.Reader

/-!
# Constant expressions

An expression is static if it is built from literals by operators. It is constant if, more generally,
evaluating it never depends on the state of a component: it may then also name a global of the
language, be a regular expression, or collect constants in an object or an array.

Parentheses and marks for the type checker never matter.
-/

namespace JsxTemplate.Script

/-- The globals of the language that a template may name. -/
def globals : List String :=
  ["Infinity", "undefined", "NaN", "isFinite", "isNaN", "parseFloat", "parseInt", "decodeURI",
    "decodeURIComponent", "encodeURI", "encodeURIComponent", "Math", "Number", "Date", "Array",
    "Object", "Boolean", "String", "RegExp", "Map", "Set", "JSON", "Intl", "BigInt", "console",
    "Error", "Symbol"]

def isGlobal (name : String) : Bool :=
  globals.contains name

def isValueWord (word : String) : Bool :=
  ["true", "false", "null", "this"].contains word

namespace Tree

/-- The expression inside parentheses and marks for the type checker. -/
def unwrapped : Tree → Tree
  | .node .paren _ (inner :: _) => inner.unwrapped
  | .node .typed _ (inner :: _) => inner.unwrapped
  | t => t

mutual

/-- Whether an expression is built from literals by operators. -/
def isStatic : Tree → Bool
  | .node kind _ cs =>
    match kind with
    | .string _ | .number | .boolean | .null | .bigint => true
    | .paren | .typed => firstIsStatic cs
    | .unary | .binary _ | .logical _ | .conditional | .sequence | .template _ => allAreStatic cs
    | _ => false

def firstIsStatic : List Tree → Bool
  | [] => false
  | t :: _ => isStatic t

def allAreStatic : List Tree → Bool
  | [] => true
  | t :: ts => isStatic t && allAreStatic ts

end

mutual

/-- Whether evaluating an expression never depends on the state of a component. -/
def isConstant : Tree → Bool
  | .node kind span cs =>
    match kind with
    | .paren | .typed => firstIsConstant cs
    | .reference name => isGlobal name || isValueWord name
    | .regex => true
    | .object => propertiesAreConstant cs
    | .array => elementsAreConstant cs
    | _ => isStatic (.node kind span cs)

def firstIsConstant : List Tree → Bool
  | [] => false
  | t :: _ => isConstant t

def propertiesAreConstant : List Tree → Bool
  | [] => true
  | .node (.property form computed) _ (key :: value :: _) :: ts =>
    (form == .plain || form == .shorthand) && (!computed || isConstant key) && isConstant value
      && propertiesAreConstant ts
  | .node .spread _ [t] :: ts => isConstant t && propertiesAreConstant ts
  | _ => false

def elementsAreConstant : List Tree → Bool
  | [] => true
  | .node .spread _ [t] :: ts => isConstant t && elementsAreConstant ts
  | .node .elision _ _ :: ts => elementsAreConstant ts
  | t :: ts => isConstant t && elementsAreConstant ts

end

/-- The text of a string, or of a template literal without expressions. -/
def literal? (t : Tree) : Option String :=
  match t.unwrapped with
  | .node (.string value) _ _ => some value
  | .node (.template texts) _ [] => texts.head?.join
  | _ => none

end Tree

end JsxTemplate.Script

namespace JsxTemplate.Expression

/-- Whether evaluating an expression never depends on the state of a component. -/
def isConstant (e : Expression) : Bool :=
  if e.isStatic then true
  else
    let content := Text.trim e.content
    if content.isEmpty then false
    else if Script.isValueWord content || Script.isGlobal content then true
    else (Script.readWhole content).any Script.Tree.isConstant

/-- The characters of an expression that is a string, if it is one. -/
def literal? (e : Expression) : Option String :=
  if e.isStatic then some e.content
  else (Script.readWhole (Text.trim e.content)).bind Script.Tree.literal?

end JsxTemplate.Expression
