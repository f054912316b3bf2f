import JsxTemplate.Script.Constant
import JsxTemplate.Script.Reference

/-!
# Loops that compare a key

In the body of a loop, an expression may depend on the item by its key alone (`isKeyOnly`), or compare
the key with a value from outside the loop (`selector?`). Such an expression changes for only a few
items when the value changes.

A script and the key are compared without regard to blanks.
-/

namespace JsxTemplate.Loop

open Script

mutual

/-- Whether a tree has no names outside the expressions whose text is that of the key. Where no
expression stands (`place`), nothing is taken for the key. -/
def onlyKey (script key : String) (place : Bool) : Tree → Bool
  | .node kind span cs =>
    if !place && kind.isExpression
        && Text.withoutBlanks (Text.slice script span.start span.stop) == key then true
    else
      match kind with
      | .reference _ | .name _ => false
      | _ => onlyKeyIn script key kind.holdsPlaces cs

def onlyKeyIn (script key : String) (place : Bool) : List Tree → Bool
  | [] => true
  | t :: ts => onlyKey script key place t && onlyKeyIn script key place ts

end

/-- Whether a script is an expression built only from the key, which is given without blanks, and from
literals. -/
def isBuiltFrom (key : String) (script : String) : Bool :=
  (readWhole script).any (onlyKey script key false)

/-- Whether a script is an expression built only from the key of the loop and from literals. -/
def isKeyOnly (script key : String) : Bool :=
  isBuiltFrom (Text.withoutBlanks key) script

/-- The two sides of the comparisons for identity in a tree. -/
def comparisons (t : Tree) : List (Span × Span) :=
  t.nodes.filterMap fun n =>
    match n with
    | .node (.binary "===") _ [left, right] => some (left.span, right.span)
    | _ => none

/-- Whether the first of two ranges of a script is built from the key, and the second is not and does
not refer to the variables of the loop. -/
def selects (script key : String) (isLocal : String → Bool) (sides : Span × Span) : Bool :=
  let text := fun s : Span => Text.slice script s.start s.stop
  isBuiltFrom key (text sides.1) && !isBuiltFrom key (text sides.2)
    && !refersTo isLocal (text sides.2)

def bothWays (sides : Span × Span) : List (Span × Span) :=
  [sides, (sides.2, sides.1)]

/-- The sides of the comparison that a condition tests, if both of its branches are static. -/
def testedComparison? (t : Tree) : Option (Span × Span) :=
  match t.unwrapped with
  | .node .conditional _ [test, yes, no] =>
    match test.unwrapped with
    | .node (.binary "===") _ [left, right] =>
      if yes.isStatic && no.isStatic then some (left.span, right.span) else none
    | _ => none
  | _ => none

/-- The range of the value from outside the loop that an expression compares with the key. Either the
expression has only one comparison that selects an item, and every variable in it starts one of the two
sides, or it is a condition with static branches that tests such a comparison. -/
def selector? (script key : String) (isLocal : String → Bool) : Option Span := do
  let key := Text.withoutBlanks key
  let tree ← readWhole script
  let isSelection := selects script key isLocal
  let single :=
    match (comparisons tree).flatMap fun sides => (bothWays sides).filter isSelection with
    | [(a, b)] =>
      if (tree.references []).all fun r => r.start == a.start || r.start == b.start then some b
      else none
    | _ => none
  single.or <| (testedComparison? tree).bind fun sides =>
    ((bothWays sides).find? isSelection).map Prod.snd

end JsxTemplate.Loop
