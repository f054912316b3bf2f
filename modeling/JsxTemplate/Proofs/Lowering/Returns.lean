import JsxTemplate.Proofs.Lowering.Accounts
import JsxTemplate.Proofs.Lowering.Order

/-!
# What blocks give back

The children of a fragment are given back by the block around it. So a block gives back the nodes on top
of it, in the order of the document. But a fragment or a `template` without a block of its own is a
fragment, too: what stands in it is given back by the block around it, before the node itself, even if the
fragment stands inside an element. A component has its children in blocks of their own.
-/

namespace JsxTemplate

variable {t : Template} {v w : Visited}

/-! ## What is given back -/

/-- Whether a node stands for its children alone. -/
def Node.isTransparent : Node → Bool
  | .fragment _ _ => true
  | .element tag _ => tag.type == .template
  | _ => false

namespace Outline

/-- The number that is given back for a node, if the node is rendered in its place. -/
def given : Outline → List Nat
  | .node id _ present _ _ => if present then id.toList else []

mutual

/-- What is given back for the nodes below a node, apart from those in blocks of their own. -/
def handsBack : Outline → Visited → List Nat
  | .node _ _ _ _ children, v =>
    if v.tag?.any Tag.isComponent then [] else handsBackOf children v.isFragment v.children

/-- What is given back for nodes and for those below them, where `isFragment` says that the nodes
themselves are given back. -/
def handsBackOf : List Outline → Bool → List Visited → List Nat
  | o :: os, isFragment, v :: vs =>
    o.handsBack v ++ ((if isFragment then o.given else []) ++ handsBackOf os isFragment vs)
  | _, _, _ => []

end

@[simp] theorem handsBackOf_nil (isFragment : Bool) (vs : List Visited) : handsBackOf [] isFragment vs = [] := by
  rw [handsBackOf.eq_def]

@[simp] theorem handsBackOf_noNodes (os : List Outline) (isFragment : Bool) :
    handsBackOf os isFragment [] = [] := by
  cases os <;> rw [handsBackOf.eq_def]

theorem handsBackOf_cons (o : Outline) (os : List Outline) (isFragment : Bool) (v : Visited)
    (vs : List Visited) : handsBackOf (o :: os) isFragment (v :: vs) =
      o.handsBack v ++ ((if isFragment then o.given else []) ++ handsBackOf os isFragment vs) := by
  rw [handsBackOf.eq_def]

theorem given_sublist {os : List Outline} {vs : List Visited} (h : os = [] ∨ os.length = vs.length) :
    (os.flatMap given).Sublist (handsBackOf os true vs) := by
  rcases h with rfl | h
  · exact List.nil_sublist _
  · induction os generalizing vs with
    | nil => exact List.nil_sublist _
    | cons o os ih =>
      obtain ⟨v, vs, rfl⟩ := List.exists_cons_of_length_eq_add_one h.symm
      rw [List.flatMap_cons, handsBackOf_cons, if_pos rfl]
      exact ((List.Sublist.refl _).append (ih (by simpa using h))).trans (List.sublist_append_right _ _)

end Outline

theorem NodePlan.handsBack_outline (n : NodePlan) (v : Visited) : n.outline.handsBack v =
    if v.tag?.any Tag.isComponent then [] else
      Outline.handsBackOf (n.children.map outline) v.isFragment v.children := by
  rw [outline_eq, Outline.handsBack]

/-! ## Documents without fragments -/

theorem Visited.node_of_child {v s : Visited} (hs : s ∈ v.children) : ∃ path n, s = .node path n := by
  cases v with
  | wrapped path tag children => exact ⟨_, _, List.mem_singleton.mp hs⟩
  | _ =>
    obtain ⟨⟨n, i⟩, -, rfl⟩ := List.mem_map.mp hs
    exact ⟨_, _, rfl⟩

/-- Whether no node at a place or below it stands for its children alone. -/
def Template.IsSolidAt (t : Template) (path : Path) : Prop :=
  ∀ p n, path <:+ p → t.nodeAt? p = some n → n.isTransparent = false

theorem Template.IsSolidAt.child {v s : Visited} (h : t.IsSolidAt v.path) (hs : s ∈ v.children) :
    t.IsSolidAt s.path := fun p n hp hn => h p n ((Visited.suffix_of_child hs).trans hp) hn

namespace Outline

mutual

theorem handsBack_of_solid {t : Template} : ∀ (o : Outline) {path : Path} {n : Node},
    (Visited.node path n).Valid t → t.IsSolidAt path → o.handsBack (.node path n) = []
  | .node _ _ _ _ children, path, n, hvalid, hsolid => by
    rw [handsBack]
    split
    · rfl
    · next hcomponent =>
      have hopaque := hsolid path n (List.suffix_refl _) hvalid
      have hfragment : (Visited.node path n).isFragment = false := by
        cases n with
        | element tag children =>
          cases htype : tag.type with
          | element => simp [Visited.isFragment, htype]
          | component => simp [Visited.tag?, Tag.isComponent, htype] at hcomponent
          | template => simp [Node.isTransparent, htype] at hopaque
        | fragment children loc => cases hopaque
        | text content loc => rfl
        | expression e roots loc => rfl
      rw [hfragment]
      refine handsBackOf_of_solid (t := t) children fun s hs => ?_
      obtain ⟨path', m, rfl⟩ := Visited.node_of_child hs
      exact ⟨_, _, rfl, Visited.Valid.child hvalid hs, Template.IsSolidAt.child hsolid hs⟩

theorem handsBackOf_of_solid {t : Template} : ∀ (os : List Outline) {vs : List Visited},
    (∀ v ∈ vs, ∃ path n, v = .node path n ∧ v.Valid t ∧ t.IsSolidAt path) → handsBackOf os false vs = []
  | [], _, _ => handsBackOf_nil _ _
  | _ :: _, [], _ => handsBackOf_noNodes _ _
  | o :: os, v :: vs, h => by
    obtain ⟨path, n, rfl, hvalid, hsolid⟩ := h v List.mem_cons_self
    rw [handsBackOf_cons, handsBack_of_solid o hvalid hsolid,
      handsBackOf_of_solid os fun v hv => h v (List.mem_cons_of_mem _ hv)]
    rfl

end

theorem handsBackOf_eq_given {os : List Outline} {vs : List Visited}
    (h : os = [] ∨ os.length = vs.length)
    (hsolid : ∀ v ∈ vs, ∃ path n, v = .node path n ∧ v.Valid t ∧ t.IsSolidAt path) :
    handsBackOf os true vs = os.flatMap given := by
  rcases h with rfl | h
  · exact handsBackOf_nil _ _
  · induction os generalizing vs with
    | nil => exact handsBackOf_nil _ _
    | cons o os ih =>
      obtain ⟨v, vs, rfl⟩ := List.exists_cons_of_length_eq_add_one h.symm
      obtain ⟨path, n, rfl, hvalid, hsolid'⟩ := hsolid v List.mem_cons_self
      have hrest := ih (fun v hv => hsolid v (List.mem_cons_of_mem _ hv)) (by simpa using h)
      rw [handsBackOf_cons, handsBack_of_solid o hvalid hsolid', List.flatMap_cons, if_pos rfl, hrest]
      rfl

end Outline

theorem Visited.fragment_of_templateLike (h : v.isTemplateLike = true) :
    v.isFragment = true ∧ v.tag?.any Tag.isComponent = false := by
  cases v with
  | root t => cases h
  | wrapped path tag children => exact ⟨rfl, rfl⟩
  | node path n =>
    cases n with
    | element tag children =>
      have htype : tag.type = .template := by simpa [isTemplateLike] using h
      simp [isFragment, tag?, Tag.isComponent, htype]
    | _ => cases h

/-! ## Blocks -/

/-- Whether a block was made for a node, and gives back the children of the node and what stands in
fragments below them. -/
structure Block.GivesBack (t : Template) (v : Visited) (b : Block) : Prop where
  valid : v.Valid t
  fragment : v.isFragment = true
  loc : b.loc = v.loc
  aligned : b.plan.children = [] ∨ b.plan.children.length = v.children.length
  returns : b.returns = Outline.handsBackOf (b.plan.children.map NodePlan.outline) true v.children

/-- Whether the current block has an account for a node that it was made for. -/
structure Lower.Holds (t : Template) (w : Visited) (c : Context) : Prop where
  valid : w.Valid t
  fragment : w.isFragment = true
  account : c.block.account = (w.loc, Outline.handsBackOf c.frame.outlines true w.children)
  aligned : c.frame.outlines = [] ∨ c.frame.outlines.length = w.children.length

theorem Lower.Holds.givesBack {c : Context} (h : Holds t w c) (hsaved : c.saved ≠ []) :
    (exitBlock c).1.GivesBack t w := by
  obtain ⟨hloc, -, -, -, hchildren⟩ := exitBlock_view hsaved
  have haccount := (accounts_exitBlock hsaved).2
  rw [h.account, Prod.mk.injEq] at haccount
  have houtlines : c.frame.outlines = (exitBlock c).1.plan.children.map NodePlan.outline := by
    rw [hchildren]
    rfl
  refine ⟨h.valid, h.fragment, haccount.1.symm, ?_, ?_⟩
  · have haligned := h.aligned
    rw [houtlines, List.map_eq_nil_iff, List.length_map] at haligned
    exact haligned
  · rw [← haccount.2, houtlines]

namespace Lower

/-- Whether the visit of a node has added to the current account what is given back for the nodes below
it. -/
structure Yields (v : Visited) (c c' : Context) : Prop where
  accounts : c'.accounts =
    (c.block.loc, c.block.returns ++ c'.frame.plan.outline.handsBack v) :: c.accounts.tail
  aligned : c'.frame.outlines = [] ∨ c'.frame.outlines.length = v.children.length

theorem accounts_addToBlock (c : Context) : (addToBlock c).2.accounts =
    (c.block.loc, c.block.returns ++ (addToBlock c).2.frame.plan.outline.given) :: c.accounts.tail := by
  obtain ⟨roots, heq⟩ := addToBlock_eq c
  have hsame : (registerTemplate (reference c).2).2.accounts = c.accounts :=
    (does_registerTemplate.mute rfl _).trans (does_reference.mute rfl c)
  rw [heq, NodePlan.outline_eq]
  generalize (registerTemplate (reference c).2).2 = c₁ at hsame
  obtain ⟨haccount, hsaved⟩ := List.cons.inj hsame
  obtain ⟨hloc, hreturns⟩ := Prod.mk.inj haccount
  refine congrArg₂ List.cons (Prod.ext hloc ?_) hsaved
  exact congrArg (· ++ _) hreturns

variable {start c c' : Context}

theorem Holds.same (h : Holds t w c) (haccounts : c'.accounts = c.accounts)
    (houtlines : c'.frame.outlines = c.frame.outlines) : Holds t w c' := by
  refine ⟨h.valid, h.fragment, ?_, houtlines ▸ h.aligned⟩
  rw [houtlines, ← h.account]
  exact (List.cons.inj haccounts).1

theorem Yields.same (h : Yields v start c) (haccounts : c'.accounts = c.accounts)
    (houtlines : c'.frame.outlines = c.frame.outlines) : Yields v start c' := by
  have hchildren : c'.frame.plan.children.map NodePlan.outline = c.frame.plan.children.map NodePlan.outline :=
    houtlines
  refine ⟨?_, houtlines ▸ h.aligned⟩
  rw [haccounts, h.accounts, NodePlan.handsBack_outline, NodePlan.handsBack_outline, hchildren]

end Lower

/-! ## The nodes on top of a block -/

def Block.tops (b : Block) : List Nat :=
  b.plan.children.flatMap fun n => if n.isPresent then n.id.toList else []

theorem Block.tops_eq (b : Block) : b.tops = (b.plan.children.map NodePlan.outline).flatMap Outline.given := by
  rw [Block.tops, List.flatMap_map]
  refine congrArg (b.plan.children.flatMap ·) (funext fun n => ?_)
  rw [NodePlan.outline_eq]
  rfl

namespace Block.GivesBack

variable {t : Template} {v : Visited} {b : Block}

theorem tops_sublist (h : b.GivesBack t v) : b.tops.Sublist b.returns := by
  rw [h.returns, Block.tops_eq]
  refine Outline.given_sublist ?_
  rw [List.map_eq_nil_iff, List.length_map]
  exact h.aligned

theorem returns_of_solid (h : b.GivesBack t v) (hsolid : ∀ s ∈ v.children, t.IsSolidAt s.path) :
    b.returns = b.tops := by
  have hchild : ∀ s ∈ v.children, ∃ path n, s = .node path n ∧ s.Valid t ∧ t.IsSolidAt path := by
    intro s hs
    obtain ⟨path, n, rfl⟩ := Visited.node_of_child hs
    exact ⟨path, n, rfl, h.valid.child hs, hsolid _ hs⟩
  rw [h.returns, Block.tops_eq]
  have haligned : b.plan.children.map NodePlan.outline = [] ∨
      (b.plan.children.map NodePlan.outline).length = v.children.length := by
    rw [List.map_eq_nil_iff, List.length_map]
    exact h.aligned
  exact Outline.handsBackOf_eq_given haligned hchild

end Block.GivesBack

end JsxTemplate
