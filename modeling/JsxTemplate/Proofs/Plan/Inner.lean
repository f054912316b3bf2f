import JsxTemplate.Proofs.Plan.Census
import JsxTemplate.Proofs.Plan.Parts

/-!
# The blocks inside a block

A block that is written inside another one is smaller, it is a part of it, and its nodes are among the nodes
of all blocks. So there is induction over the blocks inside a block, and what holds of all parts and of all
nodes holds of everything in these blocks. All this is said about plans as a whole, and passes from what a
plan is made of to the plan (`Block.inherits`).
-/

namespace JsxTemplate

/-- Whether a relation between a size and the nodes, parts and blocks of a plan passes from what the plan is
made of to the whole. -/
structure Inherited (R : Nat → List NodePlan → List Part → List Block → Prop) : Prop where
  nil : ∀ {s}, R s [] [] []
  append : ∀ {s ns ns' ps ps' bs bs'}, R s ns ps bs → R s ns' ps' bs' →
    R s (ns ++ ns') (ps ++ ps') (bs ++ bs')
  mono : ∀ {s s' ns ps bs}, R s ns ps bs → s ≤ s' → R s' ns ps bs
  node : ∀ {s ns ps bs} n, R s ns ps bs → R s (n :: ns) ps bs
  part : ∀ {s ns ps bs p}, (∀ b, p ≠ Part.block b) → R s ns ps bs → R s ns (p :: ps) bs
  unwritten : ∀ {s ns ps bs}, R s ns ps bs → R s ns ps []
  block : ∀ {s} {b : Block}, R (sizeOf b) b.census
      (b.plan.parts ++ (Operation.partsOf b.operations ++ Effect.partsOf b.effects)) b.inner →
    sizeOf b < s → R s b.census b.parts (b :: b.inner)

section

variable {R : Nat → List NodePlan → List Part → List Block → Prop} (h : Inherited R)

include h

theorem Inherited.template {s : Nat} {ns : List NodePlan} {ps : List Part} {bs : List Block}
    (hR : R s ns ps bs) (template : Option Nat) : R s ns (template.toList.map .template ++ ps) bs := by
  cases template with
  | none => exact hR
  | some index => exact h.part (by simp) hR

mutual

theorem Operation.inherits : ∀ op : Operation, R (sizeOf op) op.census op.parts op.blocks
  | .setNodes _ values blocks _ _ | .createNodes _ values blocks _ _ => by
    rw [Operation.census, Operation.parts, Operation.blocks]
    exact h.part (by simp) (h.mono (NestedBlock.inherits values blocks) (by simp; omega))
  | .branch b _ => by
    rw [Operation.census, Operation.parts, Operation.blocks]
    exact h.mono (Branch.inherits b) (by simp; omega)
  | .loop ⟨_, _, _, render, _, _, _⟩ _ => by
    rw [Operation.census, Operation.parts, Operation.blocks, LoopPlan.census, LoopPlan.parts, LoopPlan.blocks]
    exact h.part (by simp) (h.block (Block.inherits render) (by simp; omega))
  | .component ⟨_, _, _, slots, _, _, _⟩ _ => by
    rw [Operation.census, Operation.parts, Operation.blocks, ComponentUse.census, ComponentUse.parts,
      ComponentUse.blocks]
    exact h.part (by simp) (h.mono (SlotGroup.inheritsOf slots) (by simp; omega))
  | .setProperty _ _ _ | .setProperties _ _ _ | .setText _ _ _ | .setEvent _ | .setEvents _ _
  | .setHtml _ _ | .setReference _ _ _ _ | .insertNodes _ _ | .directive _ | .declareReference _
  | .getTextChild _ => by
    simp only [Operation.census, Operation.parts, Operation.blocks]
    exact h.nil

theorem Operation.inheritsOf : ∀ ops : List Operation,
    R (sizeOf ops) (Operation.censusOf ops) (Operation.partsOf ops) (Operation.blocksOf ops)
  | [] => h.nil
  | op :: ops => by
    rw [Operation.censusOf, Operation.partsOf, Operation.blocksOf]
    exact h.append (h.mono (Operation.inherits op) (by simp; omega))
      (h.mono (Operation.inheritsOf ops) (by simp))

theorem Operation.inheritsOf? : ∀ op : Option Operation,
    R (sizeOf op) (Operation.censusOf? op) (Operation.partsOf? op) (Operation.blocksOf? op)
  | none => h.nil
  | some op => by
    rw [Operation.censusOf?, Operation.partsOf?, Operation.blocksOf?]
    exact h.mono (Operation.inherits op) (by simp)

theorem Effect.inheritsOf : ∀ effects : List Effect,
    R (sizeOf effects) (Effect.censusOf effects) (Effect.partsOf effects) (Effect.blocksOf effects)
  | [] => h.nil
  | ⟨_, ops⟩ :: effects => by
    rw [Effect.censusOf, Effect.partsOf, Effect.blocksOf]
    exact h.part (by simp) (h.append (h.mono (Operation.inheritsOf ops) (by simp; omega))
      (h.mono (Effect.inheritsOf effects) (by simp)))

theorem NodePlan.inheritsOf : ∀ ns : List NodePlan,
    R (sizeOf ns) (NodePlan.censusOf ns) (NodePlan.partsOf ns) (NodePlan.blocksOf ns)
  | [] => h.nil
  | n :: ns => by
    rw [NodePlan.censusOf, NodePlan.partsOf, NodePlan.blocksOf]
    exact h.append (h.mono (NodePlan.inherits n) (by simp; omega))
      (h.mono (NodePlan.inheritsOf ns) (by simp))

theorem NodePlan.inherits : ∀ n : NodePlan, R (sizeOf n) n.census n.parts n.blocks
  | ⟨_, _, _, _, _, children, template, _, operation⟩ => by
    rw [NodePlan.census, NodePlan.parts, NodePlan.blocks]
    exact h.node _ (h.template (h.append (h.mono (Operation.inheritsOf? operation) (by simp))
      (h.mono (NodePlan.inheritsOf children) (by simp; omega))) template)

theorem Block.inherits : ∀ b : Block, R (sizeOf b) b.census
    (b.plan.parts ++ (Operation.partsOf b.operations ++ Effect.partsOf b.effects)) b.inner
  | ⟨_, ⟨_, _, _, _, _, children, template, _, operation⟩, effects, operations, _⟩ => by
    rw [Block.census, Block.inner, NodePlan.census, NodePlan.parts, NodePlan.blocksBelow,
      List.append_assoc (NodePlan.blocksOf children), ← List.nil_append (NodePlan.blocksOf children)]
    -- The operation of the plan of a block is not written.
    refine h.append (h.node _ (h.template (h.append ?_ ?_) template)) (h.append ?_ ?_)
    · exact h.unwritten (h.mono (Operation.inheritsOf? operation) (by simp; omega))
    · exact h.mono (NodePlan.inheritsOf children) (by simp; omega)
    · exact h.mono (Operation.inheritsOf operations) (by simp; omega)
    · exact h.mono (Effect.inheritsOf effects) (by simp; omega)

theorem NestedBlock.inherits (values : List Expression) : ∀ blocks : List NestedBlock,
    R (sizeOf blocks) (NestedBlock.censusOf blocks) (NestedBlock.partsOf blocks)
      (NestedBlock.blocksIn values blocks)
  | [] => h.nil
  | ⟨start, stop, b⟩ :: blocks => by
    rw [NestedBlock.censusOf, NestedBlock.partsOf, NestedBlock.blocksIn]
    have hblock := h.block (s := sizeOf (NestedBlock.mk start stop b :: blocks)) (Block.inherits b)
      (by simp; omega)
    refine h.append ?_ (h.mono (NestedBlock.inherits values blocks) (by simp))
    split
    · exact hblock
    · exact h.unwritten hblock

theorem Branch.inherits : ∀ b : Branch, R (sizeOf b) b.census b.parts b.blocks
  | ⟨_, _, positive, negative, _⟩ => by
    rw [Branch.census, Branch.parts, Branch.blocks]
    exact h.part (by simp) (h.append (h.block (Block.inherits positive) (by simp; omega))
      (h.mono (Otherwise.inheritsOf? negative) (by simp; omega)))

theorem Otherwise.inheritsOf? : ∀ o : Option Otherwise,
    R (sizeOf o) (Otherwise.censusOf? o) (Otherwise.partsOf? o) (Otherwise.blocksOf? o)
  | none => h.nil
  | some (.block b) => by
    rw [Otherwise.censusOf?, Otherwise.partsOf?, Otherwise.blocksOf?]
    exact h.block (Block.inherits b) (by simp; omega)
  | some (.branch b) => by
    rw [Otherwise.censusOf?, Otherwise.partsOf?, Otherwise.blocksOf?]
    exact h.mono (Branch.inherits b) (by simp; omega)

theorem SlotGroup.inheritsOf : ∀ groups : List SlotGroup,
    R (sizeOf groups) (SlotGroup.censusOf groups) (SlotGroup.partsOf groups) (SlotGroup.blocksOf groups)
  | [] => h.nil
  | group :: groups => by
    rw [SlotGroup.censusOf, SlotGroup.partsOf, SlotGroup.blocksOf]
    exact h.append (h.mono (SlotGroup.inherits group) (by simp; omega))
      (h.mono (SlotGroup.inheritsOf groups) (by simp))

theorem SlotGroup.inherits : ∀ group : SlotGroup, R (sizeOf group) group.census group.parts group.blocks
  | .fixed slots => by
    rw [SlotGroup.census, SlotGroup.parts, SlotGroup.blocks]
    exact h.mono (NamedSlot.inheritsOf slots) (by simp)
  | .dynamic slot => by
    rw [SlotGroup.census, SlotGroup.parts, SlotGroup.blocks]
    exact h.mono (DynamicSlot.inherits slot) (by simp)
  | .object _ => h.nil

theorem NamedSlot.inheritsOf : ∀ slots : List NamedSlot,
    R (sizeOf slots) (NamedSlot.censusOf slots) (NamedSlot.partsOf slots) (NamedSlot.blocksOf slots)
  | [] => h.nil
  | ⟨_, body⟩ :: slots => by
    rw [NamedSlot.censusOf, NamedSlot.partsOf, NamedSlot.blocksOf]
    exact h.append (h.mono (SlotBody.inherits body) (by simp; omega))
      (h.mono (NamedSlot.inheritsOf slots) (by simp))

theorem SlotBody.inherits : ∀ body : SlotBody, R (sizeOf body) body.census body.parts body.blocks
  | ⟨b, _⟩ => by
    rw [SlotBody.census, SlotBody.parts, SlotBody.blocks]
    exact h.block (Block.inherits b) (by simp; omega)

theorem DynamicSlot.inherits : ∀ slot : DynamicSlot, R (sizeOf slot) slot.census slot.parts slot.blocks
  | .single _ body | .loop _ body _ => by
    rw [DynamicSlot.census, DynamicSlot.parts, DynamicSlot.blocks]
    exact h.mono (SlotBody.inherits body) (by simp +arith)
  | .conditional _ positive negative => by
    rw [DynamicSlot.census, DynamicSlot.parts, DynamicSlot.blocks]
    exact h.append (h.mono (DynamicSlot.inherits positive) (by simp; omega))
      (h.mono (DynamicSlot.inheritsOf? negative) (by simp))

theorem DynamicSlot.inheritsOf? : ∀ slot : Option DynamicSlot,
    R (sizeOf slot) (DynamicSlot.censusOf? slot) (DynamicSlot.partsOf? slot) (DynamicSlot.blocksOf? slot)
  | none => h.nil
  | some slot => by
    rw [DynamicSlot.censusOf?, DynamicSlot.partsOf?, DynamicSlot.blocksOf?]
    exact h.mono (DynamicSlot.inherits slot) (by simp)

end

end

/-! ## Induction over blocks -/

/-- Whether some blocks are inside something of the given size: with each block, the blocks inside it
are among them, and it is smaller. -/
structure Inside (size : Nat) (blocks : List Block) : Prop where
  inner : ∀ b ∈ blocks, ∀ b' ∈ b.inner, b' ∈ blocks
  lt : ∀ b ∈ blocks, sizeOf b < size

namespace Inside

variable {size size' : Nat} {blocks blocks' : List Block}

theorem nil : Inside size [] := ⟨by simp, by simp⟩

theorem append (h : Inside size blocks) (h' : Inside size blocks') :
    Inside size (blocks ++ blocks') := by
  constructor
  · intro b hb b' hb'
    rcases List.mem_append.mp hb with hb | hb
    · exact List.mem_append_left _ (h.inner b hb b' hb')
    · exact List.mem_append_right _ (h'.inner b hb b' hb')
  · intro b hb
    rcases List.mem_append.mp hb with hb | hb
    · exact h.lt b hb
    · exact h'.lt b hb

theorem all {b : Block} (h : Inside (sizeOf b) b.inner) (hs : sizeOf b < size) :
    Inside size (b :: b.inner) := by
  constructor
  · intro b₁ hb₁ b₂ hb₂
    rcases List.mem_cons.mp hb₁ with rfl | hb₁
    · exact List.mem_cons_of_mem _ hb₂
    · exact List.mem_cons_of_mem _ (h.inner b₁ hb₁ b₂ hb₂)
  · intro b₁ hb₁
    rcases List.mem_cons.mp hb₁ with rfl | hb₁
    · exact hs
    · exact Nat.lt_trans (h.lt b₁ hb₁) hs

theorem inherited : Inherited fun size _ _ blocks => Inside size blocks where
  nil := .nil
  append := .append
  mono := fun h hs => ⟨h.inner, fun b hb => Nat.lt_of_lt_of_le (h.lt b hb) hs⟩
  node := fun _ h => h
  part := fun _ h => h
  unwritten := fun _ => .nil
  block := .all

end Inside

theorem Block.inside (b : Block) : Inside (sizeOf b) b.inner := b.inherits Inside.inherited

/-- Induction over a block and the blocks inside it. -/
@[elab_as_elim]
theorem Block.induction {P : Block → Prop} (block : ∀ b : Block, (∀ b' ∈ b.inner, P b') → P b)
    (b : Block) : P b :=
  block b fun b' _ => induction block b'
termination_by sizeOf b
decreasing_by exact (Block.inside b).lt b' ‹_›

/-! ## Parts and nodes -/

/-- Whether with each block its parts are among some parts. -/
def Part.Closed (ps : List Part) : Prop := ∀ b, Part.block b ∈ ps → b.parts ⊆ ps

namespace Part.Closed

variable {ps qs : List Part}

theorem append (h : Closed ps) (h' : Closed qs) : Closed (ps ++ qs) := by
  intro b hb
  rcases List.mem_append.mp hb with hb | hb
  · exact List.subset_append_of_subset_left _ (h b hb)
  · exact List.subset_append_of_subset_right _ (h' b hb)

theorem cons {p : Part} (hp : ∀ b, p = .block b → b.parts = p :: ps) (h : Closed ps) : Closed (p :: ps) := by
  intro b hb
  rcases List.mem_cons.mp hb with heq | hb
  · exact hp b heq.symm ▸ List.Subset.refl _
  · exact List.subset_cons_of_subset _ (h b hb)

theorem inherited : Inherited fun _ _ ps _ => Closed ps where
  nil := nofun
  append := .append
  mono := fun h _ => h
  node := fun _ h => h
  part := fun hp h => h.cons fun b hb => absurd hb (hp b)
  unwritten := id
  block := by
    intro s b h _
    rw [Block.parts_eq]
    refine h.cons fun b' hb' => ?_
    rw [← Part.block.inj hb', Block.parts_eq]

end Part.Closed

theorem Block.parts_closed (b : Block) : Part.Closed b.parts :=
  Part.Closed.inherited.block (b.inherits Part.Closed.inherited) (Nat.lt_succ_self _)

/-- Whether blocks are among some parts, and their nodes among some nodes. -/
def Accounted (nodes : List NodePlan) (parts : List Part) (blocks : List Block) : Prop :=
  ∀ b ∈ blocks, b.census ⊆ nodes ∧ Part.block b ∈ parts

namespace Accounted

variable {nodes nodes' : List NodePlan} {parts parts' : List Part} {blocks blocks' : List Block}

theorem mono (h : Accounted nodes parts blocks) (hnodes : nodes ⊆ nodes') (hparts : parts ⊆ parts') :
    Accounted nodes' parts' blocks := by
  intro b hb
  obtain ⟨hcensus, hpart⟩ := h b hb
  exact ⟨fun n hn => hnodes (hcensus hn), hparts hpart⟩

theorem append (h : Accounted nodes parts blocks) (h' : Accounted nodes' parts' blocks') :
    Accounted (nodes ++ nodes') (parts ++ parts') (blocks ++ blocks') := by
  intro b hb
  rcases List.mem_append.mp hb with hb | hb
  · exact (h.mono (List.subset_append_left _ _) (List.subset_append_left _ _)) b hb
  · exact (h'.mono (List.subset_append_right _ _) (List.subset_append_right _ _)) b hb

theorem inherited : Inherited fun _ nodes parts blocks => Accounted nodes parts blocks where
  nil := nofun
  append := .append
  mono := fun h _ => h
  node := fun _ h => h.mono (List.subset_cons_self _ _) (List.Subset.refl _)
  part := fun _ h => h.mono (List.Subset.refl _) (List.subset_cons_self _ _)
  unwritten := fun _ => nofun
  block := by
    intro s b h _ b' hb'
    rw [Block.parts_eq]
    rcases List.mem_cons.mp hb' with rfl | hb'
    · exact ⟨List.Subset.refl _, List.mem_cons_self⟩
    · exact h.mono (List.Subset.refl _) (List.subset_cons_self _ _) b' hb'

end Accounted

theorem Block.accounted (b : Block) : Accounted b.census b.parts (b :: b.inner) :=
  Accounted.inherited.block (b.inherits Accounted.inherited) (Nat.lt_succ_self _)

theorem Block.nodes_subset_census (b : Block) : b.plan.nodes ⊆ b.census := by
  have hnode : ∀ n : NodePlan, n.nodes ⊆ n.census := by
    intro n
    induction n using NodePlan.induction with
    | node n ih =>
      rw [NodePlan.nodes_eq, NodePlan.census_eq]
      refine List.cons_subset_cons _ fun m hm => List.mem_append_right _ ?_
      obtain ⟨c, hc, hm⟩ := List.mem_flatMap.mp hm
      have hmem := ih c hc hm
      generalize n.children = children at hc
      induction children with
      | nil => cases hc
      | cons c' children ihc =>
        rw [NodePlan.censusOf]
        rcases List.mem_cons.mp hc with rfl | hc
        · exact List.mem_append_left _ hmem
        · exact List.mem_append_right _ (ihc hc)
  obtain ⟨_, plan, _, _, _⟩ := b
  rw [Block.census]
  exact List.subset_append_of_subset_left _ (hnode plan)

end JsxTemplate
