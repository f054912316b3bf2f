import JsxTemplate.Proofs.Plan.Inner
import Mathlib.Algebra.Order.BigOperators.Group.List
import Mathlib.Algebra.Order.Ring.Nat

/-!
# Weights of plans

A plan is weighed by its parts and by the labels of its nodes (`Scale`). The numbers that are not taken yet
weigh something as well. So a node may become heavier when it is given a number, by as much as the numbers
that are left become lighter.
-/

namespace JsxTemplate

/-- A way to weigh plans. It gives nothing to a node about which nothing is known, and no more to a node
whose operation is changed without a new flaw. -/
structure Scale where
  part : Part → Nat
  label : Label → Nat
  /-- The weight of all numbers from a number on. -/
  unused : Nat → Nat
  blank : label ⟨none, none, false, [], true⟩ = 0
  changed : ∀ l l' : Label, l'.id = l.id → l'.anchor = l.anchor → l'.flaw ≤ l.flaw → label l' ≤ label l
  numbered : ∀ (l : Label) (id : Nat), l.id = none →
    label (l.number id) + unused (id + 1) ≤ label l + unused id
  anchored : ∀ (l : Label) (id : Nat), label (l.withAnchor id) + unused (id + 1) ≤ label l + unused id

namespace Scale

/-- The weight of parts, where nodes weigh nothing. -/
def ofParts (w : Part → Nat) : Scale where
  part := w
  label _ := 0
  unused _ := 0
  blank := rfl
  changed := fun _ _ _ _ _ => Nat.le_refl _
  numbered := fun _ _ _ => Nat.le_refl _
  anchored := fun _ _ => Nat.le_refl _

/-- How often a number occurs, or may still occur. -/
def counting (v : Nat) : Scale where
  part _ := 0
  label := Label.count v
  unused n := if n ≤ v then 1 else 0
  blank := rfl
  changed := by
    intro l l' hid hanchor _
    simp only [Label.count, hid, hanchor, Nat.le_refl]
  numbered := by
    intro l id hid
    simp only [Label.count, Label.number, hid, Option.toList_some, Option.toList_none, List.count_append,
      List.count_singleton, List.count_nil, beq_iff_eq]
    split <;> split <;> split <;> omega
  anchored := by
    intro l id
    simp only [Label.count, Label.withAnchor, Option.toList_some, List.count_append, List.count_singleton,
      beq_iff_eq]
    split <;> split <;> split <;> omega

/-- How many labels do not fit. -/
def flaws : Scale where
  part _ := 0
  label := Label.flaw
  unused _ := 0
  blank := by simp [Label.flaw, Label.Fits]
  changed := fun _ _ _ _ h => h
  numbered := by
    intro l id hid
    refine Label.flaw_le fun hl => ⟨rfl, fun i hi => ?_, hl.2.2⟩
    have hnone := hl.2.1 i hi
    rw [hid] at hnone
    cases hnone
  anchored := fun l _ => Label.flaw_le fun hl => hl

variable (W : Scale)

theorem unused_succ_le (n : Nat) : W.unused (n + 1) ≤ W.unused n :=
  Nat.le_of_add_le_add_left (W.anchored ⟨none, some n, false, [], true⟩ n)

/-! ## What a plan is made of -/

section

variable {ps qs : List Part} {ns ms : List NodePlan}

def of (ps : List Part) (ns : List NodePlan) : Nat :=
  (ps.map W.part).sum + (ns.map fun n => W.label n.label).sum

@[simp] theorem of_nil : W.of [] [] = 0 := rfl

theorem of_cons (p : Part) : W.of (p :: ps) ns = W.part p + W.of ps ns := by
  simp only [of, List.map_cons, List.sum_cons]
  omega

theorem of_append : W.of (ps ++ qs) (ns ++ ms) = W.of ps ns + W.of qs ms := by
  simp only [of, List.map_append, List.sum_append]
  omega

end

def operation (op : Operation) : Nat := W.of op.parts op.census

def effect (e : Effect) : Nat := W.part (.effect e) + (e.operations.map W.operation).sum

def node (n : NodePlan) : Nat := W.of n.parts n.census

def block (b : Block) : Nat := W.of b.parts b.census

def branch (b : Branch) : Nat := W.of b.parts b.census

def otherwise (o : Option Otherwise) : Nat := W.of (Otherwise.partsOf? o) (Otherwise.censusOf? o)

def nested (blocks : List NestedBlock) : Nat := (blocks.map fun b => W.block b.block).sum

def slots (groups : List SlotGroup) : Nat :=
  ((groups.flatMap SlotGroup.bodies).map fun s => W.block s.block).sum

theorem of_operations (ops : List Operation) :
    W.of (Operation.partsOf ops) (Operation.censusOf ops) = (ops.map W.operation).sum := by
  induction ops with
  | nil => rfl
  | cons op ops ih => rw [Operation.partsOf, Operation.censusOf, of_append, ih]; rfl

theorem of_effects (effects : List Effect) :
    W.of (Effect.partsOf effects) (Effect.censusOf effects) = (effects.map W.effect).sum := by
  induction effects with
  | nil => rfl
  | cons e effects ih =>
    obtain ⟨expressions, ops⟩ := e
    rw [Effect.partsOf, Effect.censusOf, of_cons, of_append, of_operations, ih, ← Nat.add_assoc]
    rfl

theorem of_nodes (ns : List NodePlan) :
    W.of (NodePlan.partsOf ns) (NodePlan.censusOf ns) = (ns.map W.node).sum := by
  induction ns with
  | nil => rfl
  | cons n ns ih => rw [NodePlan.partsOf, NodePlan.censusOf, of_append, ih]; rfl

theorem of_nested (blocks : List NestedBlock) :
    W.of (NestedBlock.partsOf blocks) (NestedBlock.censusOf blocks) = W.nested blocks := by
  induction blocks with
  | nil => rfl
  | cons b blocks ih =>
    cases b
    rw [NestedBlock.partsOf, NestedBlock.censusOf, of_append, ih]
    rfl

theorem of_slots (groups : List SlotGroup) :
    W.of (SlotGroup.partsOf groups) (SlotGroup.censusOf groups) = W.slots groups := by
  rw [SlotGroup.partsOf_eq, SlotGroup.censusOf_eq, slots]
  induction groups.flatMap SlotGroup.bodies with
  | nil => rfl
  | cons body bodies ih =>
    cases body
    rw [List.flatMap_cons, List.flatMap_cons, of_append, ih]
    rfl

theorem node_eq (n : NodePlan) :
    W.node n = (n.template.toList.map fun k => W.part (.template k)).sum + W.label n.label +
      ((n.operation.toList.map W.operation).sum + (n.children.map W.node).sum) := by
  have hop : (n.operation.toList.map W.operation).sum =
      W.of (Operation.partsOf? n.operation) (Operation.censusOf? n.operation) := by
    cases n.operation <;> rfl
  rw [hop, ← of_nodes, ← of_append, node, NodePlan.parts_eq, NodePlan.census_eq]
  simp only [of, List.map_append, List.map_cons, List.map_map, List.sum_append, List.sum_cons]
  exact Nat.add_add_add_comm _ _ _ _

theorem node_empty : W.node .empty = 0 := by
  rw [node_eq, NodePlan.label_empty, W.blank]
  rfl

theorem block_eq (b : Block) : W.block b = W.part (.block b) +
    (W.node b.plan + ((b.operations.map W.operation).sum + (b.effects.map W.effect).sum)) := by
  rw [← of_operations, ← of_effects, node, ← of_append, ← of_append, ← of_cons, ← Block.parts_eq]
  cases b
  rfl

theorem branch_eq (id : Nat) (condition : Expression) (positive : Block) (negative : Option Otherwise)
    (once : Bool) : W.branch ⟨id, condition, positive, negative, once⟩ =
      W.part (.maker (.branch ⟨id, condition, positive, none, once⟩ none)) +
        (W.block positive + W.otherwise negative) := by
  rw [branch, Branch.parts, Branch.census, of_cons, of_append]
  rfl

theorem otherwise_branch (b : Branch) : W.otherwise (some (.branch b)) = W.branch b := by
  rw [otherwise, Otherwise.partsOf?, Otherwise.censusOf?]
  rfl

theorem otherwise_block (b : Block) : W.otherwise (some (.block b)) = W.block b := by
  rw [otherwise, Otherwise.partsOf?, Otherwise.censusOf?]
  rfl

theorem operation_of_nil {op : Operation} (hparts : op.parts = []) (hcensus : op.census = []) :
    W.operation op = 0 := by
  rw [operation, hparts, hcensus, of_nil]

end Scale

theorem Part.subperm_of_sum_le {P : Part → Bool} {ps qs : List Part}
    (h : ∀ w : Part → Nat, (∀ p, P p = false → w p = 0) → (ps.map w).sum ≤ (qs.map w).sum) :
    (ps.filter P).Subperm (qs.filter P) := by
  classical
  have hcount : ∀ (p : Part) (rs : List Part), P p = true →
      (rs.map fun q => if q = p then 1 else 0).sum = (rs.filter P).count p := by
    intro p rs hp
    rw [List.count_filter hp]
    induction rs with
    | nil => rfl
    | cons r rs ih =>
      rw [List.map_cons, List.sum_cons, ih, List.count_cons, Nat.add_comm]
      simp
  rw [List.subperm_ext_iff]
  intro p hp
  have hloud : P p = true := (List.mem_filter.mp hp).2
  rw [← hcount p ps hloud, ← hcount p qs hloud]
  refine h _ fun q hq => ?_
  have hne : q ≠ p := by
    rintro rfl
    simp [hloud] at hq
  simp [hne]

end JsxTemplate
