import JsxTemplate.Lowering.Step

/-!
# Children

The children of the template, of a component, or of a wrapper are the top nodes of a block. The
children of an element are part of its markup. Those that cannot be are inserted at run time: in front
of all others, at the end, or before a placeholder in the markup.
-/

namespace JsxTemplate

/-- Where a run of nodes is inserted among the children that are part of the markup. -/
inductive RunPlace where
  | front
  | middle
  | back
  deriving DecidableEq, Repr

/-- The runs of children that are inserted between the same children of the markup, with their place.
`run` is the run so far, and `afterStatic` says that a child of the markup has been met. -/
def insertionRuns (index : Nat) (run : List Nat) (afterStatic : Bool) :
    List NodePlan → List (List Nat × RunPlace)
  | [] => if run.isEmpty then [] else [(run, .back)]
  | plan :: plans =>
    let run := if plan.insert then run ++ [index] else run
    if plan.nonTemplate then insertionRuns (index + 1) run afterStatic plans
    else
      let rest := insertionRuns (index + 1) [] true plans
      if run.isEmpty then rest
      else (run, if afterStatic then .middle else .front) :: rest

def NodePlan.insertRun (run : List Nat) (insertion : Insertion) (children : List NodePlan) :
    List NodePlan :=
  children.zipIdx.map fun (child, index) =>
    if run.contains index && child.template.isNone then
      { child with operation := child.operation.map (Operation.insertAt insertion) }
    else child

def NodePlan.clonedIn (run : List Nat) (children : List NodePlan) : List Nat :=
  run.filterMap fun index =>
    children[index]?.bind fun child => if child.template.isSome then child.id else none

namespace Lower

def insertRun (run : List Nat) (anchor : Option Anchor) : Lower Unit := do
  let parent ← reference
  let insertion : Insertion := ⟨parent, anchor⟩
  let children := (← get).frame.plan.children
  modifyPlan fun p => { p with children := NodePlan.insertRun run insertion p.children }
  let cloned := NodePlan.clonedIn run children
  if !cloned.isEmpty then addOperation (.insertNodes cloned insertion)

def putPlaceholder (index : Nat) : Lower Nat := do
  modifyFrame fun f => { f with childTemplates := f.childTemplates.set index "<!>" }
  let anchor ← freshId
  modifyPlan fun p =>
    { p with
      children := p.children.modify index fun child =>
        { child with nonTemplate := false, anchor := some anchor } }
  return anchor

def insertRuns : List (List Nat × RunPlace) → Lower Unit
  | [] => return ()
  | (run, place) :: runs => do
    match place with
    | .front => insertRun run (some .front)
    | .middle =>
      let anchor ← putPlaceholder (run.headD 0)
      insertRun run (some (.node anchor))
    | .back => insertRun run none
    insertRuns runs

/-- Note which piece of markup holds the current node, if that is all that is rendered. -/
def noteRootTemplate (template : Option Nat) : Lower Unit :=
  modify fun c =>
    if c.frame.rootTemplate then { c with rootTemplates := c.rootTemplates ++ template.toList } else c

/-- Let the block give the current node back, if it is rendered in its place. -/
def giveBack : Lower Unit :=
  modify fun c =>
    let plan := c.frame.plan
    if !plan.nonTemplate || plan.insert then
      { c with block := { c.block with returns := c.block.returns ++ plan.id.toList } }
    else c

/-- Make the current node, which is a child of a fragment, a top node of the block. -/
def addToBlock : Lower Unit := do
  let _ ← reference
  let template ← registerTemplate
  noteRootTemplate template
  giveBack

def needsAttention (plan : NodePlan) : Bool :=
  plan.hasDynamicChild || plan.id.isSome || plan.nonTemplate || plan.insert

def addChild (isFragment : Bool) (child : Frame) : Lower Unit :=
  modifyFrame fun f =>
    { f with
      childTemplates := if isFragment then f.childTemplates else f.childTemplates ++ [child.template]
      plan :=
        { f.plan with
          hasDynamicChild := f.plan.hasDynamicChild || needsAttention child.plan
          children := f.plan.children ++ [child.plan] } }

/-- Lower children, of which the first has the given index. The result says whether the walk goes on. -/
def lowerChildren (visit : Lower Unit) (isFragment : Bool) : Nat → List Visited → Lower Bool
  | _, [] => return true
  | index, child :: children => do
    pushFrame child index
    visit
    if ← isAborted then
      let _ ← popFrame
      return false
    if isFragment then addToBlock
    let frame ← popFrame
    addChild isFragment frame
    lowerChildren visit isFragment (index + 1) children

def childrenStep (visit : Lower Unit) : Lower (List Exit) := do
  match ← node with
  | none => return []
  | some v =>
    if v.isTextLike then return []
    let goesOn ← lowerChildren visit v.isFragment 0 v.children
    if goesOn && !v.isFragment then
      insertRuns (insertionRuns 0 [] false (← get).frame.plan.children)
    return []

end Lower

end JsxTemplate
