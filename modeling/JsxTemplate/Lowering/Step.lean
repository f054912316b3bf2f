import JsxTemplate.Lowering.Context

/-!
# Steps of the walk

At each node, steps are taken one after the other. A step may leave something to do when the walk
leaves the node (`Exit`); what was left last is done first.

Besides the steps of this library, there may be added ones (`Extensions`).
-/

namespace JsxTemplate

inductive Exit where
  | branch (id : Nat) (condition : Expression)
  /-- Finish a further branch of a condition; the last one has no condition of its own. -/
  | otherwise (condition : Option Expression)
  | loop (id : Nat) (head : LoopHead) (keyProperty : Option Expression) (component : Bool)
      (scope : Nat)
  | reference (value : Expression)
  /-- Finish an element, whose properties are set at a place that was noted on the way down. -/
  | element (cursor : Lower.Cursor)
  | componentSlots (directive : Option Directive) (pattern : Option Expression)
      (firstOther : Option Location) (scope : Nat)
  | templateSlot (slot : Directive) (condition otherwise loop : Option Directive)
      (head : Option LoopHead) (scope : Nat)
  | added (run : Lower Unit)

/-- What an added directive makes of an attribute of an element, which may become a property. -/
abbrev DirectiveStep := Directive → Tag → List Node → Lower (Option Property)

structure Extensions where
  /-- Steps that are taken at each node, after all others. -/
  steps : List (Lower (List Exit))
  /-- Directives, which go before those of this library. -/
  directives : List (String × DirectiveStep)

def Extensions.none : Extensions := ⟨[], []⟩

end JsxTemplate
