import JsxTemplate.Lowering.Children
import JsxTemplate.Lowering.Condition
import JsxTemplate.Lowering.Element
import JsxTemplate.Lowering.Slot
import JsxTemplate.Lowering.Text

/-!
# From templates to rendering plans

At each node the steps are taken in a fixed order, and then, in the opposite order, what they have left
to do. A node is met at most three times: once as it is, once inside the wrapper of its condition, and
once inside the wrapper of its loop. So the depth of the walk is bounded by the height of the template.
-/

namespace JsxTemplate

namespace Lower

def runExit (extensions : Extensions) : Exit → Lower Unit
  | .branch id condition => exitBranch id condition
  | .otherwise condition => exitOtherwise condition
  | .loop id head keyProperty component scope => exitLoop id head keyProperty component scope
  | .reference value => exitReference value
  | .element cursor => exitElement extensions cursor
  | .componentSlots d pattern firstOther scope => exitComponentSlots d pattern firstOther scope
  | .templateSlot d condition otherwise loop head scope =>
    exitTemplateSlot d condition otherwise loop head scope
  | .added run => run

/-- Do what the steps have left to do, as long as the walk goes on. -/
def runExits (extensions : Extensions) : List Exit → Lower Unit
  | [] => return ()
  | exit :: exits => do
    if ← isAborted then return ()
    runExit extensions exit
    runExits extensions exits

/-- Take steps, and gather what they leave to do, the last first. There is no result if the walk stops
or the node is removed. -/
def runSteps : List (Lower (List Exit)) → List Exit → Lower (Option (List Exit))
  | [], exits => return some exits
  | step :: steps, exits => do
    let left ← step
    if (← isAborted) || (← node).isNone then return none
    runSteps steps (left.reverse ++ exits)

/-- The steps at a node; `visit` lowers the current node. -/
def steps (extensions : Extensions) (visit : Lower Unit) : List (Lower (List Exit)) :=
  [onceStep, conditionStep, loopStep, referenceStep, elementStep, textStep visit, slotStep,
    childrenStep visit] ++ extensions.steps

/-- Lower the current node. The number bounds the depth of the walk. -/
def lowerNode (extensions : Extensions) : Nat → Lower Unit
  | 0 => return ()
  | depth + 1 => do
    match ← runSteps (steps extensions (lowerNode extensions depth)) [] with
    | none => return ()
    | some exits => runExits extensions exits

end Lower

def Template.depth (t : Template) : Nat :=
  3 * Node.heightAll t.children + 3

def Template.lower (options : LoweringOptions) (extensions : Extensions) (t : Template) : Context :=
  (Lower.lowerNode extensions t.depth (Context.ofTemplate options t)).2

end JsxTemplate
