import JsxTemplate.Proofs.Lowering.Actions

/-!
# The outline of a plan

When the walk has left a node, little about it can change: a further branch is attached to a condition, a
place is found for what is inserted, or a placeholder is put in front of it. The outline of a node is what
stays the same then: its number, its markup, whether it is rendered by its block, whether an operation
makes it, and the outlines of the nodes below it.
-/

namespace JsxTemplate

/-- What no longer changes about a node that the walk has left. -/
inductive Outline where
  | node (id template : Option Nat) (present made : Bool) (children : List Outline)

namespace NodePlan

mutual

def outline : NodePlan → Outline
  | ⟨id, _, nonTemplate, insert, _, children, template, _, operation⟩ =>
    .node id template (!nonTemplate || insert) operation.isSome (outlineOf children)

def outlineOf : List NodePlan → List Outline
  | [] => []
  | n :: ns => n.outline :: outlineOf ns

end

theorem outlineOf_eq_map (ns : List NodePlan) : outlineOf ns = ns.map outline := by
  induction ns with
  | nil => rfl
  | cons n ns ih => rw [outlineOf, ih, List.map_cons]

theorem outline_eq (n : NodePlan) :
    n.outline = .node n.id n.template n.isPresent n.operation.isSome (n.children.map outline) := by
  cases n
  rw [outline, outlineOf_eq_map]
  rfl

theorem outline_congr {n n' : NodePlan} (hid : n'.id = n.id) (htemplate : n'.template = n.template)
    (hpresent : n'.isPresent = n.isPresent) (hmade : n'.operation.isSome = n.operation.isSome)
    (hchildren : n'.children = n.children) : n'.outline = n.outline := by
  rw [outline_eq, outline_eq n, hid, htemplate, hpresent, hmade, hchildren]

end NodePlan

namespace Outline

mutual

/-- The numbers of a node and of the nodes below it, in the order of the document. -/
def ids : Outline → List Nat
  | .node id _ _ _ children => id.toList ++ idsOf children

def idsOf : List Outline → List Nat
  | [] => []
  | o :: os => o.ids ++ idsOf os

end

theorem idsOf_eq_flatMap (os : List Outline) : idsOf os = os.flatMap ids := by
  induction os with
  | nil => rfl
  | cons o os ih => rw [idsOf, ih, List.flatMap_cons]

theorem ids_eq (id template : Option Nat) (present made : Bool) (children : List Outline) :
    (node id template present made children).ids = id.toList ++ children.flatMap ids := by
  rw [ids, idsOf_eq_flatMap]

end Outline

theorem NodePlan.ids_outline (n : NodePlan) : n.outline.ids = n.nodes.filterMap NodePlan.id := by
  induction n using NodePlan.induction with
  | node n ih =>
    have hchildren : ∀ ns : List NodePlan, (∀ c ∈ ns, c.outline.ids = c.nodes.filterMap NodePlan.id) →
        (ns.map outline).flatMap Outline.ids = (ns.flatMap nodes).filterMap NodePlan.id := by
      intro ns hns
      induction ns with
      | nil => rfl
      | cons c ns ihns =>
        rw [List.map_cons, List.flatMap_cons, List.flatMap_cons, List.filterMap_append,
          hns c List.mem_cons_self, ihns fun c' hc' => hns c' (List.mem_cons_of_mem _ hc')]
    rw [outline_eq, Outline.ids_eq, hchildren _ ih, nodes_eq]
    cases hid : n.id with
    | none => simp [hid]
    | some id => simp [hid]

/-! ## Changes after a node was left -/

theorem outline_mapLastBranch (f : Branch → Branch) (plans : List NodePlan) :
    (mapLastBranch f plans).map NodePlan.outline = plans.map NodePlan.outline := by
  rcases mapLastBranch_cases f plans with h | ⟨before, n, after, b, into, hplans, hop, hmap⟩
  · rw [h]
  · have hsame : (n.withOperation (.branch (f b) into)).outline = n.outline :=
      NodePlan.outline_congr rfl rfl rfl (by rw [hop]; rfl) rfl
    rw [hmap, hplans, List.map_append, List.map_append, List.map_cons, List.map_cons, hsame]

theorem outline_insertRun (run : List Nat) (into : Insertion) (children : List NodePlan) :
    (NodePlan.insertRun run into children).map NodePlan.outline = children.map NodePlan.outline :=
  NodePlan.map_insertRun (fun _ => NodePlan.outline_congr rfl rfl rfl (by simp) rfl) run children

theorem outline_putPlaceholder {index : Nat} {children : List NodePlan} (anchor : Nat)
    (h : ∀ n, children[index]? = some n → n.insert = true) :
    (children.modify index (NodePlan.held anchor)).map NodePlan.outline = children.map NodePlan.outline := by
  induction children generalizing index with
  | nil => simp
  | cons n ns ih =>
    cases index with
    | zero =>
      have hinsert : n.insert = true := h n rfl
      rw [List.modify_zero_cons, List.map_cons, List.map_cons]
      congr 1
      exact NodePlan.outline_congr rfl rfl (by simp [NodePlan.isPresent, NodePlan.held, hinsert]) rfl rfl
    | succ index =>
      rw [List.modify_succ_cons, List.map_cons, List.map_cons, ih fun m hm => h m (by simpa using hm)]

end JsxTemplate
