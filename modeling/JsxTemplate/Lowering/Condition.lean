import JsxTemplate.Lowering.Step

/-!
# Conditions

An element with a condition becomes a branch. The elements with further conditions right behind it are
attached to that branch.
-/

namespace JsxTemplate

namespace Branch

/-- Whether a further branch can be attached to the last one. -/
def isOpen : Branch → Bool
  | ⟨_, _, _, some (.branch next), _⟩ => next.isOpen
  | ⟨_, _, _, negative, _⟩ => negative.isNone

def attach (otherwise : Otherwise) : Branch → Branch
  | ⟨id, condition, positive, some (.branch next), once⟩ =>
    ⟨id, condition, positive, some (.branch (next.attach otherwise)), once⟩
  | ⟨id, condition, positive, _, once⟩ => ⟨id, condition, positive, some otherwise, once⟩

end Branch

/-- The condition that the last node with an operation stands for, among nodes of which the last comes
first. -/
def lastBranch? : List NodePlan → Option Branch
  | [] => none
  | plan :: plans =>
    match plan.operation with
    | none => lastBranch? plans
    | some (.branch b _) => some b
    | some _ => none

/-- Change the condition that the last node with an operation stands for, among nodes of which the last
comes first. -/
def mapLastBranch (f : Branch → Branch) : List NodePlan → List NodePlan
  | [] => []
  | plan :: plans =>
    match plan.operation with
    | none => plan :: mapLastBranch f plans
    | some (.branch b insertion) =>
      { plan with operation := some (.branch (f b) insertion) } :: plans
    | some _ => plan :: plans

/-- What a further branch of the condition with the given number renders. The last branch has no condition
of its own. -/
def Otherwise.ofBranch (id : Nat) (condition : Option Expression) (block : Block) (once : Bool) :
    Otherwise :=
  match condition with
  | none => .block block
  | some condition => .branch ⟨id, condition, block, none, once⟩

/-- Attach a further branch, given by the number of the condition, to the last condition below a node. -/
def Frame.attachBranch (otherwise : Nat → Otherwise) (frame : Frame) : Frame :=
  let children := mapLastBranch (fun b => b.attach (otherwise b.id)) frame.plan.children.reverse
  { frame with plan := { frame.plan with children := children.reverse } }

namespace Lower

/-- Whether the element before the current one has a condition to which a branch can be attached. -/
def followsCondition : Lower Bool := do
  let index ← index
  let parent ← parentFrame?
  let before := if index == 0 then none
    else (parent.bind Frame.node).bind fun p => p.children[index - 1]?
  match before.bind Visited.tag? with
  | none => return false
  | some tag =>
    if !tag.hasDirective ["if", "else-if"] then return false
    return parent.any fun p => (lastBranch? p.plan.children.reverse).any Branch.isOpen

/-- Enter the block of a branch. An element is wrapped, so that it is met again inside the block. -/
def enterBranch (path : Path) (tag : Tag) (children : List Node) : Lower Unit := do
  if tag.type != .template then replaceNode (.wrapped path tag children)
  enterBlock tag.loc false
  let _ ← reference
  return ()

/-- The condition of a directive; a missing one is reported and counts as true. -/
def conditionOf (d : Directive) : Lower Expression := do
  match d.exp with
  | some e => return e
  | none =>
    report .ifNoExpression (some d.loc)
    return ⟨"true", false, d.loc⟩

def conditionDirective? (tag : Tag) : Option Directive :=
  ((tag.directive? "if").or (tag.directive? "else-if")).or (tag.directive? "else")

/-- The condition of a branch; the last branch has none of its own. -/
def branchCondition (d : Directive) : Lower (Option Expression) := do
  if d.name == "else" then return none
  return some (← conditionOf d)

def enterFirstBranch (path : Path) (tag : Tag) (children : List Node) (condition : Expression) :
    Lower (List Exit) := do
  modifyPlan fun p => { p with nonTemplate := true }
  let id ← reference
  modifyPlan fun p => { p with insert := true }
  enterBranch path tag children
  return [.branch id condition]

/-- Enter a further branch of a condition, which must follow one that is open. -/
def enterNextBranch (path : Path) (tag : Tag) (children : List Node) (condition : Option Expression) :
    Lower (List Exit) := do
  modifyPlan fun p => { p with nonTemplate := true }
  if !(← followsCondition) then
    report .elseNoAdjacentIf (some tag.loc)
    modifyPlan fun p => { p with nonTemplate := false }
    return []
  enterBranch path tag children
  return [.otherwise condition]

def conditionStep : Lower (List Exit) := do
  match ← node with
  | some (.node path (.element tag children)) =>
    if tag.isTemplateSlot then return []
    match conditionDirective? tag with
    | none => return []
    | some d =>
      if !(← markSeen path "if") then return []
      match ← branchCondition d, d.name == "if" with
      | some condition, true => enterFirstBranch path tag children condition
      | condition, _ => enterNextBranch path tag children condition
  | _ => return []

def exitBranch (id : Nat) (condition : Expression) : Lower Unit := do
  let once := (← inOnce) || condition.isConstant
  let positive ← exitBlock
  let branch : Branch := ⟨id, condition, positive, none, once⟩
  modifyPlan fun p => { p with operation := some (.branch branch none) }

def exitOtherwise (condition : Option Expression) : Lower Unit := do
  let once := (← inOnce) || condition.any Expression.isConstant
  let block ← exitBlock
  modifyParent (Frame.attachBranch fun id => Otherwise.ofBranch id condition block once)

end Lower

end JsxTemplate
