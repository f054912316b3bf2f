import JsxTemplate.Code.Emit

/-!
# The way to a node

The markup of a block is cloned as a whole, and the nodes in it that need attention are found by going
from node to node. The place of a node is its index among the children that are part of the markup.
-/

namespace JsxTemplate

namespace NodePlan

/-- Whether a node is cloned from markup of its own and inserted. -/
def isDetached (n : NodePlan) : Bool :=
  n.template.isSome && n.insert

/-- The number of the variable for what stands in the place of a node: the node, or a placeholder. -/
def target (n : NodePlan) : Option Nat :=
  if !n.referenced then none
  else if n.insert then n.anchor
  else n.id

/-- Whether there is nothing to find in the place of a node or below it. -/
def isPassedOver (n : NodePlan) : Bool :=
  n.target.isNone && (n.isDetached || !n.hasDynamicChild)

/-- The index of a node, if the children before it make `position` nodes of the markup. A node that has
no place in the markup has the index of the node before it. -/
def place (n : NodePlan) (position : Int) : Int :=
  if n.nonTemplate then position - 1 else position

end NodePlan

namespace Route

/-- How to find the child of a node with an index, if the last child that was found is known with its
index. -/
def choose (parent : Variable) (previous : Option (Variable × Int)) (index : Int) : Route :=
  match previous with
  | some (node, i) => if index - i == 1 then .after node else .nth parent index
  | none =>
    if index == 0 then .first parent
    else if index == 1 then .second parent
    else .nth parent index

end Route

namespace Emit

def find (v : Variable) (route : Route) : Emit Listing := do
  let _ ← route.helpers.mapM helper
  return [.newline, .find v route]

/-- The variable for a node: that of its number, or a temporary one. -/
def variableOf : Option Nat → Emit Variable
  | some id => return .node id
  | none => do return .temporary (← temporary)

end Emit

end JsxTemplate
