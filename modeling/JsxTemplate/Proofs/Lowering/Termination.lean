import JsxTemplate.Proofs.Lowering.Course

/-!
# The walk ends by itself

The cost of a node bounds how deep the walk goes from there (`Affords`). If the walk may go as deep, it
makes no difference how much deeper it may go (`lowerNode_of_affords`): the bound is never reached.
-/

namespace JsxTemplate

/-- Whether a bound on the depth of the walk is enough for the current node. The elements inside an
expression are visited together with those inside the expressions beside it. -/
structure Affords (n : Nat) (c : Context) : Prop where
  node : ∀ v, c.frame.node = some v → v.cost c.seen ≤ n
  siblings : ∀ v parent, c.frame.node = some v → v.isExpression = true →
    c.outer.head?.bind Frame.node = some parent → ∀ s ∈ parent.children, s.cost c.seen ≤ n

namespace Lower

variable {c : Context} {n : Nat}

theorem cost_of_mem_nestedRoots {vs : List Visited} {r : Visited} (hr : r ∈ nestedRoots vs)
    (seen : List (Path × String)) :
    r.isExpression = false ∧ ∃ v ∈ vs, r.cost seen + 1 ≤ v.cost seen := by
  obtain ⟨path, e, roots, loc, n, i, hv, hn, rfl⟩ := mem_nestedRoots hr
  have hle : n.height ≤ _ := Node.height_le_heightAll (List.mem_of_getElem? hn)
  have hcost : (Visited.node (i :: path) n.asFragment).cost seen ≤ 3 * (n.height + 1) := by
    refine Nat.le_trans (Visited.cost_node_le _ _) (Nat.mul_le_mul_left 3 ?_)
    cases n <;> simp [Node.asFragment, Node.height, Node.heightAll]
  refine ⟨by cases n <;> rfl, _, hv, ?_⟩
  simp only [Visited.cost, Node.height] at hcost ⊢
  omega

theorem cost_of_mem_prepareText (hn : Affords (n + 1) c) :
    ∀ r ∈ (prepareText c).1.roots, r.isExpression = false ∧ r.cost (prepareText c).2.seen ≤ n := by
  have hprepare := does_prepareText.grows c
  intro r hr
  obtain ⟨v, hv, hr | ⟨hexp, parent, siblings, hparent, hsub, hr⟩⟩ := rootsAmong_prepareText c r hr
  · obtain ⟨hkind, s, hs, hcost⟩ := cost_of_mem_nestedRoots hr c.seen
    have hchild : s.cost c.seen + 1 ≤ v.cost c.seen := Visited.cost_child hs
    have hnode := hn.node v hv
    exact ⟨hkind, Nat.le_trans (Visited.cost_mono hprepare.seen r) (by omega)⟩
  · obtain ⟨hkind, s, hs, hcost⟩ := cost_of_mem_nestedRoots hr c.seen
    have hsibling := hn.siblings v parent hv hexp hparent s (hsub s hs)
    exact ⟨hkind, Nat.le_trans (Visited.cost_mono hprepare.seen r) (by omega)⟩

theorem affords_enterChild {v child : Visited} (hv : c.frame.node = some v)
    (hcost : ∀ s ∈ v.children, s.cost c.seen ≤ n) (hchild : child ∈ v.children) (index : Nat) :
    Affords n (c.enterChild child index) where
  node := by
    rintro w ⟨⟩
    exact hcost child hchild
  siblings := by
    intro w parent _ _ hparent
    obtain rfl := Option.some.inj (hv.symm.trans hparent)
    exact hcost

/-- Whether two ways to visit a node agree if the bound is enough for the node. -/
def Agree (n : Nat) (visit visit' : Lower Unit) : Prop :=
  ∀ c, Collecting c → Affords n c → visit c = visit' c

section

variable {n : Nat} {visit visit' : Lower Unit} (hagree : Agree n visit visit')

include hagree

theorem agree_nestedBlocks (hbalanced : Balanced visit) (hbalanced' : Balanced visit')
    {roots : List Visited} (hc : Collecting c)
    (hroots : ∀ r ∈ roots, r.isExpression = false ∧ r.cost c.seen ≤ n) :
    nestedBlocks visit roots c = nestedBlocks visit' roots c := by
  induction roots generalizing c with
  | nil => rfl
  | cons r roots ih =>
    obtain ⟨hexp, hcost⟩ := hroots r List.mem_cons_self
    have hvisit : visit (enterNested r c) = visit' (enterNested r c) := by
      refine hagree _ ((grows_enterNested r c).collecting hc) ⟨?_, ?_⟩
      · rintro v ⟨⟩
        exact hcost
      · rintro v parent ⟨⟩ hv
        simp [hexp] at hv
    have hafter : afterNested visit r c = afterNested visit' r c := by
      rw [afterNested, hvisit, afterNested]
    have hgrows := (resumed_afterNested hbalanced hc r).grows
    have hrest := ih (hgrows.collecting hc) fun s hs => by
      obtain ⟨hexp, hcost⟩ := hroots s (List.mem_cons_of_mem _ hs)
      exact ⟨hexp, Nat.le_trans (Visited.cost_mono hgrows.seen s) hcost⟩
    rw [nestedBlocks_collecting hbalanced hc, nestedBlocks_collecting hbalanced' hc, run_bind, hrest,
      hafter, hvisit]
    rfl

theorem agree_lowerChildren (hbalanced : Balanced visit) (hbalanced' : Balanced visit') {v : Visited}
    (isFragment : Bool) (index : Nat) {children : List Visited} (hsub : ∀ s ∈ children, s ∈ v.children)
    (hc : Collecting c) (hv : c.frame.node = some v) (hcost : ∀ s ∈ v.children, s.cost c.seen ≤ n) :
    lowerChildren visit isFragment index children c = lowerChildren visit' isFragment index children c := by
  induction children generalizing index c with
  | nil => rfl
  | cons child children ih =>
    have hvisit : visit (c.enterChild child index) = visit' (c.enterChild child index) :=
      hagree _ ((grows_enterChild child index c).collecting hc)
        (affords_enterChild hv hcost (hsub child List.mem_cons_self) index)
    have hafter : afterChild visit isFragment child index c = afterChild visit' isFragment child index c := by
      rw [afterChild, hvisit, afterChild]
    have hresumed := resumed_afterChild hbalanced hc isFragment child index
    have hrest := ih (index + 1) (fun s hs => hsub s (List.mem_cons_of_mem _ hs))
      (hresumed.grows.collecting hc) (hresumed.node.trans hv)
      fun s hs => Nat.le_trans (Visited.cost_mono hresumed.grows.seen s) (hcost s hs)
    rw [lowerChildren_collecting hbalanced hc, lowerChildren_collecting hbalanced' hc, hrest, hafter]

theorem agree_textStep (hbalanced : Balanced visit) (hbalanced' : Balanced visit') (hc : Collecting c)
    (hn : Affords (n + 1) c) : textStep visit c = textStep visit' c := by
  have hprepare := does_prepareText.grows c
  simp only [textStep, runText, run_bind,
    agree_nestedBlocks hagree hbalanced hbalanced' (hprepare.collecting hc) (cost_of_mem_prepareText hn)]

theorem agree_childrenStep (hbalanced : Balanced visit) (hbalanced' : Balanced visit')
    (hc : Collecting c) (hn : ∀ v, c.frame.node = some v → v.cost c.seen ≤ n + 1) :
    childrenStep visit c = childrenStep visit' c := by
  simp only [childrenStep, run_bind, run_node]
  cases hv : c.frame.node with
  | none => rfl
  | some v =>
    have hcost : ∀ s ∈ v.children, s.cost c.seen ≤ n := by
      intro s hs
      have hchild : s.cost c.seen + 1 ≤ v.cost c.seen := Visited.cost_child hs
      have hnode := hn v hv
      omega
    simp only [run_ite, run_bind,
      agree_lowerChildren hagree hbalanced hbalanced' v.isFragment 0 (fun _ hs => hs) hc hv hcost]

end

theorem affords_of_nears {c c' : Context} (h : Nears c c') (hn : Affords n c) {v : Visited}
    (hv : c.frame.node = some v) : Affords n c' := by
  obtain ⟨v', hv', hcost, hkind⟩ := h.node v hv
  constructor
  · intro w hw
    obtain rfl := Option.some.inj (hv'.symm.trans hw)
    exact Nat.le_trans hcost (hn.node v hv)
  · intro w parent hw hexp hparent s hs
    obtain rfl := Option.some.inj (hv'.symm.trans hw)
    rcases hkind with rfl | ⟨path, tag, children, rfl, rfl⟩
    · rw [h.outer] at hparent
      exact Nat.le_trans (Visited.cost_mono h.grows.seen s) (hn.siblings _ parent hv hexp hparent s hs)
    · cases hexp

theorem lowerNode_of_affords {n m : Nat} (hle : n ≤ m) (hc : Collecting c) (hn : Affords n c) :
    lowerNode .none m c = lowerNode .none n c := by
  -- By induction on the bound: what is visited at the node is cheaper than the node.
  induction n generalizing m c with
  | zero =>
    cases hv : c.frame.node with
    | none => rw [lowerNode_of_none hv, lowerNode_of_none hv]
    | some v =>
      have hpos : 0 < v.cost c.seen := v.cost_pos
      have hcost := hn.node v hv
      omega
  | succ n ih =>
    obtain ⟨m, rfl⟩ : ∃ m', m = m' + 1 := ⟨m - 1, by omega⟩
    cases hv : c.frame.node with
    | none => rw [lowerNode_of_none hv, lowerNode_of_none hv]
    | some v =>
      have hsome : c.frame.node.isSome = true := by rw [hv]; rfl
      have hagree : Agree n (lowerNode .none m) (lowerNode .none n) := fun c hc hn =>
        ih (by omega) hc hn
      have hbalanced := balanced_lowerNode m
      have hnears := nears_approach c
      have hc₁ := hnears.grows.collecting hc
      have hn₁ := affords_of_nears hnears hn hv
      have htext := agree_textStep hagree hbalanced (balanced_lowerNode n) hc₁ hn₁
      have hfixed := fixed_textStep hbalanced
      rw [lowerNode_collecting hc hsome, lowerNode_collecting hc hsome]
      simp only [run_bind]
      generalize (approach c).2 = c₁ at hc₁ hn₁ htext
      have hgrows₂ := hfixed.grows c₁
      have hc₂ := hgrows₂.collecting hc₁
      have hnode₂ := hfixed.node c₁ hc₂.goesOn
      have hslots := hushing_slotStep (textStep (lowerNode .none m) c₁).2
      have hc₃ := (does_slotStep.grows (textStep (lowerNode .none m) c₁).2).collecting hc₂
      have hcost₃ : ∀ v, (slotStep (textStep (lowerNode .none m) c₁).2).2.frame.node = some v →
          v.cost (slotStep (textStep (lowerNode .none m) c₁).2).2.seen ≤ n + 1 := by
        intro v hv
        rw [hslots.node, hnode₂] at hv
        rw [hslots.seen]
        exact Nat.le_trans (Visited.cost_mono hgrows₂.seen v) (hn₁.node v hv)
      rw [← htext, agree_childrenStep hagree hbalanced (balanced_lowerNode n) hc₃ hcost₃]

theorem affords_ofTemplate (o : LoweringOptions) (t : Template) :
    Affords t.depth (Context.ofTemplate o t) where
  node := by
    rintro v ⟨⟩
    exact Nat.le_refl _
  siblings := by
    rintro v parent ⟨⟩ hexp
    cases hexp

end Lower

end JsxTemplate
