import JsxTemplate.Proofs.Lowering.SlotBodies
import JsxTemplate.Proofs.Plan.Nodes

/-!
# All nodes of a plan

A census lists the nodes of a plan together with those of all blocks inside it: of branches, loops,
slots, and elements inside expressions, whether or not code is written for them. The numbers of nodes
are counted by their tally.
-/

namespace JsxTemplate

mutual

/-- The nodes of the blocks in an operation. -/
def Operation.census : Operation → List NodePlan
  | .setNodes _ _ blocks _ _ | .createNodes _ _ blocks _ _ => NestedBlock.censusOf blocks
  | .branch b _ => b.census
  | .loop l _ => l.census
  | .component c _ => c.census
  | _ => []

def Operation.censusOf : List Operation → List NodePlan
  | [] => []
  | op :: ops => op.census ++ Operation.censusOf ops

def Operation.censusOf? : Option Operation → List NodePlan
  | none => []
  | some op => op.census

def Effect.censusOf : List Effect → List NodePlan
  | [] => []
  | ⟨_, ops⟩ :: effects => Operation.censusOf ops ++ Effect.censusOf effects

def NodePlan.census : NodePlan → List NodePlan
  | ⟨id, referenced, nonTemplate, insert, anchor, children, template, hasDynamicChild, operation⟩ =>
    ⟨id, referenced, nonTemplate, insert, anchor, children, template, hasDynamicChild, operation⟩
      :: (Operation.censusOf? operation ++ NodePlan.censusOf children)

def NodePlan.censusOf : List NodePlan → List NodePlan
  | [] => []
  | n :: ns => n.census ++ NodePlan.censusOf ns

def Block.census : Block → List NodePlan
  | ⟨_, plan, effects, operations, _⟩ =>
    plan.census ++ (Operation.censusOf operations ++ Effect.censusOf effects)

def NestedBlock.censusOf : List NestedBlock → List NodePlan
  | [] => []
  | ⟨_, _, b⟩ :: blocks => b.census ++ NestedBlock.censusOf blocks

def Branch.census : Branch → List NodePlan
  | ⟨_, _, positive, negative, _⟩ => positive.census ++ Otherwise.censusOf? negative

def Otherwise.censusOf? : Option Otherwise → List NodePlan
  | none => []
  | some (.block b) => b.census
  | some (.branch b) => b.census

def LoopPlan.census : LoopPlan → List NodePlan
  | ⟨_, _, _, render, _, _, _⟩ => render.census

def ComponentUse.census : ComponentUse → List NodePlan
  | ⟨_, _, _, slots, _, _, _⟩ => SlotGroup.censusOf slots

def SlotGroup.censusOf : List SlotGroup → List NodePlan
  | [] => []
  | group :: groups => group.census ++ SlotGroup.censusOf groups

def SlotGroup.census : SlotGroup → List NodePlan
  | .fixed slots => NamedSlot.censusOf slots
  | .dynamic slot => slot.census
  | .object _ => []

def NamedSlot.censusOf : List NamedSlot → List NodePlan
  | [] => []
  | ⟨_, body⟩ :: slots => body.census ++ NamedSlot.censusOf slots

def SlotBody.census : SlotBody → List NodePlan
  | ⟨b, _⟩ => b.census

def DynamicSlot.census : DynamicSlot → List NodePlan
  | .single _ body => body.census
  | .loop _ body _ => body.census
  | .conditional _ positive negative => positive.census ++ DynamicSlot.censusOf? negative

def DynamicSlot.censusOf? : Option DynamicSlot → List NodePlan
  | none => []
  | some slot => slot.census

end

theorem NodePlan.census_eq (n : NodePlan) :
    n.census = n :: (Operation.censusOf? n.operation ++ NodePlan.censusOf n.children) := by
  cases n
  rw [NodePlan.census]

theorem DynamicSlot.census_eq (slot : DynamicSlot) :
    slot.census = slot.bodies.flatMap SlotBody.census := by
  fun_induction DynamicSlot.bodies slot with
  | case1 | case2 => simp [DynamicSlot.census]
  | case3 _ _ ih => simp [DynamicSlot.census, DynamicSlot.censusOf?, ih]
  | case4 _ _ _ ih ih' => simp [DynamicSlot.census, DynamicSlot.censusOf?, ih, ih']

theorem SlotGroup.census_eq (group : SlotGroup) :
    group.census = group.bodies.flatMap SlotBody.census := by
  cases group with
  | fixed slots =>
    rw [SlotGroup.census, SlotGroup.bodies]
    induction slots with
    | nil => rfl
    | cons slot slots ih =>
      cases slot
      simp [NamedSlot.censusOf, ih]
  | dynamic slot => exact slot.census_eq
  | object => rfl

theorem SlotGroup.censusOf_eq (groups : List SlotGroup) :
    SlotGroup.censusOf groups = (groups.flatMap SlotGroup.bodies).flatMap SlotBody.census := by
  induction groups with
  | nil => rfl
  | cons group groups ih =>
    rw [SlotGroup.censusOf, SlotGroup.census_eq, ih, List.flatMap_cons, List.flatMap_append]

/-! ## Labels -/

/-- The numbers of the links of a condition. -/
def Branch.ids : Branch → List Nat
  | ⟨id, _, _, some (.branch next), _⟩ => id :: next.ids
  | ⟨id, _, _, _, _⟩ => [id]

/-- The numbers that an operation that makes nodes carries. -/
def Operation.madeIds : Operation → List Nat
  | .branch b _ => b.ids
  | .loop l _ => [l.id]
  | .component c _ => [c.id]
  | .createNodes id _ _ _ _ => [id]
  | _ => []

/-- What is known about the numbers of a node. -/
structure Label where
  id : Option Nat
  anchor : Option Nat
  referenced : Bool
  made : List Nat
  makes : Bool
  deriving DecidableEq

def NodePlan.label (n : NodePlan) : Label :=
  ⟨n.id, n.anchor, n.referenced, n.operation.elim [] Operation.madeIds, n.operation.all Operation.isBlock⟩

theorem NodePlan.label_empty : NodePlan.empty.label = ⟨none, none, false, [], true⟩ := rfl

namespace Label

def number (id : Nat) (l : Label) : Label := ⟨some id, l.anchor, true, l.made, l.makes⟩

def withAnchor (id : Nat) (l : Label) : Label := ⟨l.id, some id, l.referenced, l.made, l.makes⟩

/-- How often a number occurs. -/
def count (v : Nat) (l : Label) : Nat := (l.id.toList ++ l.anchor.toList).count v

/-- Whether a variable refers to the node exactly if it has a number, which is then the number in the
operation that makes it, and the operation does make nodes. -/
def Fits (l : Label) : Prop :=
  l.referenced = l.id.isSome ∧ (∀ i ∈ l.made, l.id = some i) ∧ l.makes = true

instance (l : Label) : Decidable l.Fits := inferInstanceAs (Decidable (_ ∧ _ ∧ _))

/-- One for a label that does not fit. -/
def flaw (l : Label) : Nat := if l.Fits then 0 else 1

end Label

theorem Label.fits_of_flaw {l : Label} (h : l.flaw = 0) : l.Fits := by
  by_contra hfits
  simp [Label.flaw, hfits] at h

theorem Label.flaw_le {l l' : Label} (h : l.Fits → l'.Fits) : l'.flaw ≤ l.flaw := by
  by_cases hl : l.Fits
  · simp [Label.flaw, h hl]
  · simp only [Label.flaw, if_neg hl]
    split <;> omega

end JsxTemplate
