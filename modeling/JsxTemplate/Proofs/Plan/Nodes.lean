import JsxTemplate.Code.Block
import JsxTemplate.Lowering.Children
import Mathlib.Data.List.Basic

/-!
# The nodes and blocks of a plan

A plan is a tree in several ways: nodes stand below nodes, and blocks stand inside operations of other
blocks. Here both are listed: the nodes of a block that are reached without entering another block
(`NodePlan.nodes`), and the blocks whose code is written (`Block.all`).
-/

namespace JsxTemplate

namespace NodePlan

/-- Induction over a node and the nodes below it. -/
@[elab_as_elim]
theorem induction {P : NodePlan → Prop} (node : ∀ n : NodePlan, (∀ c ∈ n.children, P c) → P n)
    (n : NodePlan) : P n :=
  node n fun c _ => induction node c
termination_by sizeOf n
decreasing_by
  cases n with
  | mk id referenced nonTemplate insert anchor children template hasDynamicChild operation =>
    have hlt := List.sizeOf_lt_of_mem ‹c ∈ _›
    simp only [NodePlan.mk.sizeOf_spec]
    simp only at hlt
    omega

mutual

/-- A node and the nodes below it. -/
def nodes : NodePlan → List NodePlan
  | ⟨id, referenced, nonTemplate, insert, anchor, children, template, hasDynamicChild, operation⟩ =>
    ⟨id, referenced, nonTemplate, insert, anchor, children, template, hasDynamicChild, operation⟩
      :: nodesOf children

def nodesOf : List NodePlan → List NodePlan
  | [] => []
  | n :: ns => n.nodes ++ nodesOf ns

end

theorem nodesOf_eq_flatMap (ns : List NodePlan) : nodesOf ns = ns.flatMap nodes := by
  induction ns with
  | nil => rfl
  | cons n ns ih => rw [nodesOf, ih, List.flatMap_cons]

theorem nodes_eq (n : NodePlan) : n.nodes = n :: n.children.flatMap nodes := by
  cases n
  simp only [nodes, nodesOf_eq_flatMap]

theorem self_mem_nodes (n : NodePlan) : n ∈ n.nodes := by
  rw [nodes_eq]
  exact List.mem_cons_self

theorem mem_nodes_of_child {n c m : NodePlan} (hc : c ∈ n.children) (hm : m ∈ c.nodes) :
    m ∈ n.nodes := by
  rw [nodes_eq]
  exact List.mem_cons_of_mem _ (List.mem_flatMap.mpr ⟨c, hc, hm⟩)

/-- Whether a node is rendered by its own block: in the markup, or by being inserted there. -/
def isPresent (n : NodePlan) : Bool := !n.nonTemplate || n.insert

end NodePlan

/-! ## Blocks -/

mutual

/-- The blocks in an operation whose code is written. A block in an expression is written where the
element stands in one of the values. -/
def Operation.blocks : Operation → List Block
  | .setNodes _ values blocks _ _ | .createNodes _ values blocks _ _ =>
    NestedBlock.blocksIn values blocks
  | .branch b _ => b.blocks
  | .loop l _ => l.blocks
  | .component c _ => c.blocks
  | _ => []

def Operation.blocksOf : List Operation → List Block
  | [] => []
  | op :: ops => op.blocks ++ Operation.blocksOf ops

def Operation.blocksOf? : Option Operation → List Block
  | none => []
  | some op => op.blocks

def Effect.blocksOf : List Effect → List Block
  | [] => []
  | ⟨_, ops⟩ :: effects => Operation.blocksOf ops ++ Effect.blocksOf effects

def NodePlan.blocksOf : List NodePlan → List Block
  | [] => []
  | n :: ns => n.blocks ++ NodePlan.blocksOf ns

def NodePlan.blocks : NodePlan → List Block
  | ⟨_, _, _, _, _, children, _, _, operation⟩ =>
    Operation.blocksOf? operation ++ NodePlan.blocksOf children

/-- The blocks inside a block. -/
def Block.inner : Block → List Block
  | ⟨_, plan, effects, operations, _⟩ =>
    NodePlan.blocksBelow plan ++ Operation.blocksOf operations ++ Effect.blocksOf effects

def NodePlan.blocksBelow : NodePlan → List Block
  | ⟨_, _, _, _, _, children, _, _, _⟩ => NodePlan.blocksOf children

/-- The blocks of those elements inside expressions that stand in one of the values. -/
def NestedBlock.blocksIn (values : List Expression) : List NestedBlock → List Block
  | [] => []
  | ⟨start, stop, b⟩ :: blocks =>
    (if values.any fun e => Emit.isInside e start stop then b :: b.inner else [])
      ++ NestedBlock.blocksIn values blocks

def Branch.blocks : Branch → List Block
  | ⟨_, _, positive, negative, _⟩ => positive :: positive.inner ++ Otherwise.blocksOf? negative

def Otherwise.blocksOf? : Option Otherwise → List Block
  | none => []
  | some (.block b) => b :: b.inner
  | some (.branch b) => b.blocks

def LoopPlan.blocks : LoopPlan → List Block
  | ⟨_, _, _, render, _, _, _⟩ => render :: render.inner

def ComponentUse.blocks : ComponentUse → List Block
  | ⟨_, _, _, slots, _, _, _⟩ => SlotGroup.blocksOf slots

def SlotGroup.blocksOf : List SlotGroup → List Block
  | [] => []
  | group :: groups => group.blocks ++ SlotGroup.blocksOf groups

def SlotGroup.blocks : SlotGroup → List Block
  | .fixed slots => NamedSlot.blocksOf slots
  | .dynamic slot => slot.blocks
  | .object _ => []

def NamedSlot.blocksOf : List NamedSlot → List Block
  | [] => []
  | ⟨_, body⟩ :: slots => body.blocks ++ NamedSlot.blocksOf slots

def SlotBody.blocks : SlotBody → List Block
  | ⟨b, _⟩ => b :: b.inner

def DynamicSlot.blocks : DynamicSlot → List Block
  | .single _ body => body.blocks
  | .loop _ body _ => body.blocks
  | .conditional _ positive negative => positive.blocks ++ DynamicSlot.blocksOf? negative

def DynamicSlot.blocksOf? : Option DynamicSlot → List Block
  | none => []
  | some slot => slot.blocks

end

theorem Operation.blocksOf_eq_flatMap (ops : List Operation) :
    Operation.blocksOf ops = ops.flatMap Operation.blocks := by
  induction ops with
  | nil => simp [Operation.blocksOf]
  | cons op ops ih => rw [Operation.blocksOf, ih, List.flatMap_cons]

theorem Effect.blocksOf_eq_flatMap (effects : List Effect) :
    Effect.blocksOf effects = effects.flatMap fun e => Operation.blocksOf e.operations := by
  induction effects with
  | nil => simp [Effect.blocksOf]
  | cons e effects ih => cases e; rw [Effect.blocksOf, ih, List.flatMap_cons]

theorem NodePlan.blocksOf_eq_flatMap (ns : List NodePlan) :
    NodePlan.blocksOf ns = ns.flatMap NodePlan.blocks := by
  induction ns with
  | nil => simp [NodePlan.blocksOf]
  | cons n ns ih => rw [NodePlan.blocksOf, ih, List.flatMap_cons]

theorem NodePlan.blocks_eq (n : NodePlan) :
    n.blocks = Operation.blocksOf? n.operation ++ n.children.flatMap NodePlan.blocks := by
  cases n
  rw [NodePlan.blocks, NodePlan.blocksOf_eq_flatMap]

theorem Block.inner_eq (b : Block) :
    b.inner = b.plan.children.flatMap NodePlan.blocks ++ Operation.blocksOf b.operations
      ++ Effect.blocksOf b.effects := by
  obtain ⟨loc, ⟨⟩, effects, ops, returns⟩ := b
  rw [Block.inner, NodePlan.blocksBelow, NodePlan.blocksOf_eq_flatMap]

theorem NestedBlock.mem_blocksIn {values : List Expression} {blocks : List NestedBlock} {b : Block} :
    b ∈ NestedBlock.blocksIn values blocks ↔
      ∃ e ∈ values, b ∈ NestedBlock.blocksIn [e] blocks := by
  induction blocks with
  | nil => simp [NestedBlock.blocksIn]
  | cons block blocks ih =>
    obtain ⟨start, stop, b'⟩ := block
    simp only [NestedBlock.blocksIn, List.mem_append, ih, List.any_cons, List.any_nil, Bool.or_false]
    constructor
    · rintro (hb | ⟨e, he, hb⟩)
      · split at hb
        · next h =>
          obtain ⟨e, he, hin⟩ := List.any_eq_true.mp h
          exact ⟨e, he, Or.inl (by simpa [hin] using hb)⟩
        · simp at hb
      · exact ⟨e, he, Or.inr hb⟩
    · rintro ⟨e, he, hb | hb⟩
      · split at hb
        · next h =>
          have : values.any (fun e => Emit.isInside e start stop) = true :=
            List.any_eq_true.mpr ⟨e, he, h⟩
          exact Or.inl (by simpa [this] using hb)
        · simp at hb
      · exact Or.inr ⟨e, he, hb⟩

theorem NodePlan.mem_blocks_of_mem_nodes {b : Block} {n m : NodePlan} (hm : m ∈ n.nodes) {op : Operation}
    (hop : m.operation = some op) (hb : b ∈ op.blocks) : b ∈ n.blocks := by
  induction n using NodePlan.induction with
  | node n ih =>
    rw [NodePlan.blocks_eq, List.mem_append, List.mem_flatMap]
    rw [NodePlan.nodes_eq, List.mem_cons, List.mem_flatMap] at hm
    rcases hm with rfl | ⟨c, hc, hm⟩
    · rw [hop, Operation.blocksOf?]
      exact Or.inl hb
    · exact Or.inr ⟨c, hc, ih c hc hm⟩

end JsxTemplate
