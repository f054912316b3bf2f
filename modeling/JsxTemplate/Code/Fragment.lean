import JsxTemplate.Position
import JsxTemplate.Text.Quoted

/-!
# Fragments of code

Code is a list of fragments. Lines are indented only when the fragments are put together, and a fragment
that comes from the template knows its place there.
-/

namespace JsxTemplate

inductive Fragment where
  /-- A line break with the indentation of the next line. -/
  | newline
  | indent
  | dedent
  | code (text : String)
  /-- Text that comes from a place in the template, where it may have had another name. -/
  | mapped (text : String) (loc : Location) (name : Option String)
  deriving DecidableEq, Repr, Inhabited

abbrev Code := List Fragment

inductive Delimiters where
  | args
  | array
  | object
  | arrayLines
  | objectLines
  deriving DecidableEq, Repr

namespace Delimiters

def left : Delimiters → Code
  | .args => [.code "("]
  | .array => [.code "["]
  | .object => [.code "\x7b "]
  | .arrayLines => [.code "[", .indent, .newline]
  | .objectLines => [.code "\x7b", .indent, .newline]

def right : Delimiters → Code
  | .args => [.code ")"]
  | .array => [.code "]"]
  | .object => [.code " \x7d"]
  | .arrayLines => [.dedent, .newline, .code "]"]
  | .objectLines => [.dedent, .newline, .code "\x7d"]

def separator : Delimiters → Code
  | .args | .array | .object => [.code ", "]
  | .arrayLines | .objectLines => [.code ",", .newline]

end Delimiters

def dropMissing {α : Type} (items : List (Option α)) : List (Option α) :=
  (items.reverse.dropWhile Option.isNone).reverse

namespace Code

def list (d : Delimiters) (items : List Code) : Code :=
  d.left ++ (items.intersperse d.separator).flatten ++ d.right

/-- A list of items, some of which are missing: those at the end are left out, and the others are
written as `blank`. -/
def listWithBlanks (d : Delimiters) (blank : String) (items : List (Option Code)) : Code :=
  list d ((dropMissing items).map fun item => item.getD [.code blank])

/-- A call. Arguments that are missing are written as `blank`. -/
def callWithBlanks (blank : String) (name : String) (args : List (Option Code)) : Code :=
  .code name :: listWithBlanks .args blank args

def call (name : String) (args : List (Option Code)) : Code :=
  callWithBlanks "null" name args

def text (s : String) : Code := [.code s]

def getter (e : Code) : Code :=
  .code "() => (" :: e ++ [.code ")"]

def nodeName (id : Nat) : String := "n" ++ toString id

/-- The parameters of the function that is called for each item of a loop. A name that is missing before
others is replaced. -/
def loopParameters (value key index : Option String) : Code :=
  let value := value.or (if key.isSome || index.isSome then some "_" else none)
  let key := key.or (if index.isSome then some "__" else none)
  list .args ((value.toList ++ key.toList ++ index.toList).map text)

end Code

end JsxTemplate
