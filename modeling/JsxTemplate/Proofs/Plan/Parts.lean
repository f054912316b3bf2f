import JsxTemplate.Proofs.Lowering.SlotBodies
import JsxTemplate.Proofs.Plan.Nodes
import Mathlib.Data.List.Perm.Subperm

/-!
# The parts of a plan

What a plan is made of is listed in its parts: all blocks, also those inside others, the operations that
run again, the operations that make something once or again and again, and the pieces of markup that its
nodes are cloned from. A condition is a part for each of its branches, and the place where nodes are
inserted does not count, so that a part stays the same when a further branch is attached or a place is
found.
-/

namespace JsxTemplate

/-- A part of a plan. -/
inductive Part where
  /-- A block. -/
  | block (b : Block)
  /-- Operations that run again when an expression changes. -/
  | effect (e : Effect)
  /-- An operation that says whether what it makes is made only once. -/
  | maker (op : Operation)
  /-- The index of a piece of markup. -/
  | template (index : Nat)

/-- Whether what an operation makes is made only once, if the operation says so. -/
def Operation.once? : Operation → Option Bool
  | .setNodes _ _ _ once _ | .createNodes _ _ _ once _ => some once
  | .branch b _ => some b.once
  | .loop l _ => some l.once
  | .component c _ => some c.once
  | _ => none

mutual

/-- The parts of an operation. -/
def Operation.parts : Operation → List Part
  | .setNodes element values blocks once generated =>
    .maker (.setNodes element values blocks once generated) :: NestedBlock.partsOf blocks
  | .createNodes id values blocks once _ =>
    .maker (.createNodes id values blocks once none) :: NestedBlock.partsOf blocks
  | .branch b _ => b.parts
  | .loop l _ => .maker (.loop l none) :: l.parts
  | .component c _ => .maker (.component c none) :: c.parts
  | _ => []

def Operation.partsOf : List Operation → List Part
  | [] => []
  | op :: ops => op.parts ++ Operation.partsOf ops

def Operation.partsOf? : Option Operation → List Part
  | none => []
  | some op => op.parts

def Effect.partsOf : List Effect → List Part
  | [] => []
  | ⟨expressions, ops⟩ :: effects =>
    .effect ⟨expressions, ops⟩ :: (Operation.partsOf ops ++ Effect.partsOf effects)

def NodePlan.parts : NodePlan → List Part
  | ⟨_, _, _, _, _, children, template, _, operation⟩ =>
    template.toList.map .template ++ (Operation.partsOf? operation ++ NodePlan.partsOf children)

def NodePlan.partsOf : List NodePlan → List Part
  | [] => []
  | n :: ns => n.parts ++ NodePlan.partsOf ns

def Block.parts : Block → List Part
  | ⟨loc, plan, effects, operations, returns⟩ =>
    .block ⟨loc, plan, effects, operations, returns⟩ ::
      (plan.parts ++ (Operation.partsOf operations ++ Effect.partsOf effects))

def NestedBlock.partsOf : List NestedBlock → List Part
  | [] => []
  | ⟨_, _, b⟩ :: blocks => b.parts ++ NestedBlock.partsOf blocks

/-- The parts of a condition: each of its branches, and what is inside them. -/
def Branch.parts : Branch → List Part
  | ⟨id, condition, positive, negative, once⟩ =>
    .maker (.branch ⟨id, condition, positive, none, once⟩ none) ::
      (positive.parts ++ Otherwise.partsOf? negative)

def Otherwise.partsOf? : Option Otherwise → List Part
  | none => []
  | some (.block b) => b.parts
  | some (.branch b) => b.parts

def LoopPlan.parts : LoopPlan → List Part
  | ⟨_, _, _, render, _, _, _⟩ => render.parts

def ComponentUse.parts : ComponentUse → List Part
  | ⟨_, _, _, slots, _, _, _⟩ => SlotGroup.partsOf slots

def SlotGroup.partsOf : List SlotGroup → List Part
  | [] => []
  | group :: groups => group.parts ++ SlotGroup.partsOf groups

def SlotGroup.parts : SlotGroup → List Part
  | .fixed slots => NamedSlot.partsOf slots
  | .dynamic slot => slot.parts
  | .object _ => []

def NamedSlot.partsOf : List NamedSlot → List Part
  | [] => []
  | ⟨_, body⟩ :: slots => body.parts ++ NamedSlot.partsOf slots

def SlotBody.parts : SlotBody → List Part
  | ⟨b, _⟩ => b.parts

def DynamicSlot.parts : DynamicSlot → List Part
  | .single _ body => body.parts
  | .loop _ body _ => body.parts
  | .conditional _ positive negative => positive.parts ++ DynamicSlot.partsOf? negative

def DynamicSlot.partsOf? : Option DynamicSlot → List Part
  | none => []
  | some slot => slot.parts

end

theorem NodePlan.parts_eq (n : NodePlan) :
    n.parts = n.template.toList.map .template ++
      (Operation.partsOf? n.operation ++ NodePlan.partsOf n.children) := by
  cases n
  rw [NodePlan.parts]

theorem Block.parts_eq (b : Block) :
    b.parts = .block b :: (b.plan.parts ++ (Operation.partsOf b.operations ++ Effect.partsOf b.effects)) := by
  cases b
  rw [Block.parts]

theorem DynamicSlot.parts_eq (slot : DynamicSlot) :
    slot.parts = slot.bodies.flatMap SlotBody.parts := by
  fun_induction DynamicSlot.bodies slot with
  | case1 | case2 => simp [DynamicSlot.parts]
  | case3 _ _ ih => simp [DynamicSlot.parts, DynamicSlot.partsOf?, ih]
  | case4 _ _ _ ih ih' => simp [DynamicSlot.parts, DynamicSlot.partsOf?, ih, ih']

theorem SlotGroup.parts_eq (group : SlotGroup) :
    group.parts = group.bodies.flatMap SlotBody.parts := by
  cases group with
  | fixed slots =>
    rw [SlotGroup.parts, SlotGroup.bodies]
    induction slots with
    | nil => rfl
    | cons slot slots ih =>
      cases slot
      simp [NamedSlot.partsOf, ih]
  | dynamic slot => exact slot.parts_eq
  | object => rfl

theorem SlotGroup.partsOf_eq (groups : List SlotGroup) :
    SlotGroup.partsOf groups = (groups.flatMap SlotGroup.bodies).flatMap SlotBody.parts := by
  induction groups with
  | nil => rfl
  | cons group groups ih =>
    rw [SlotGroup.partsOf, SlotGroup.parts_eq, ih, List.flatMap_cons, List.flatMap_append]

theorem Effect.mem_partsOf {e : Effect} {effects : List Effect} (h : e ∈ effects) :
    Part.effect e ∈ Effect.partsOf effects := by
  induction effects with
  | nil => cases h
  | cons e' effects ih =>
    obtain ⟨expressions, ops⟩ := e'
    rw [Effect.partsOf]
    rcases List.mem_cons.mp h with rfl | h
    · exact List.mem_cons_self
    · exact List.mem_cons_of_mem _ (List.mem_append_right _ (ih h))

theorem NodePlan.parts_subset_of_mem {n : NodePlan} {ns : List NodePlan} (h : n ∈ ns) :
    n.parts ⊆ NodePlan.partsOf ns := by
  induction ns with
  | nil => cases h
  | cons m ns ih =>
    rw [NodePlan.partsOf]
    rcases List.mem_cons.mp h with rfl | h
    · exact List.subset_append_left _ _
    · exact List.subset_append_of_subset_right _ (ih h)

theorem NodePlan.template_mem_parts (n : NodePlan) :
    ∀ m ∈ n.nodes, ∀ k, m.template = some k → Part.template k ∈ n.parts := by
  induction n using NodePlan.induction with
  | node n ih =>
    intro m hm k hk
    rw [NodePlan.nodes_eq, List.mem_cons, List.mem_flatMap] at hm
    rw [NodePlan.parts_eq]
    rcases hm with rfl | ⟨child, hchild, hm⟩
    · exact List.mem_append_left _ (by simp [hk])
    · have hbelow := NodePlan.parts_subset_of_mem hchild (ih child hchild m hm k hk)
      exact List.mem_append_right _ (List.mem_append_right _ hbelow)

end JsxTemplate
