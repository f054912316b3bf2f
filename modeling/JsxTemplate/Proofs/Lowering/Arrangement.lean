import JsxTemplate.Proofs.Lowering.Returns

/-!
# What the walk puts into blocks

The walk is followed through the current block and those that it enters. What a visit adds to the current
block sets properties in the order of the document, and the nodes below the visited one come to the account
of the block if they stand on top of it (`Arranges`). So every block that is left sets properties in order,
and gives back what stands on top of it.
-/

namespace JsxTemplate

variable {t : Template} {v w : Visited}

/-- All blocks set properties in order, and give back what stands on top of them. -/
def blockRule (t : Template) : PartRule where
  allows _ _
    | .block b => b.InOrder t ∧ ∃ v, b.GivesBack t v
    | _ => True
  ofOnce := fun {_ p} h => by cases p <;> exact h
  ofLess := fun {_ _ _ p} _ h => by cases p <;> exact h
  effect := fun _ => trivial
  maker := fun _ => trivial
  template := fun _ => trivial

namespace Lower

/-! ## Visits below a node -/

/-- Whether a visit makes only blocks as they should be, sets properties in order in what it adds to the
current block, and adds to the account of that block. -/
def Arranges (t : Template) (visit : Lower Unit) : Prop :=
  ∀ c v, Collecting c → Sound t c → c.frame.node = some v → c.frame.plan.children = [] →
    (∃ once, (c.frame.once = true → once = true) ∧
      Supplies (blockRule t) 0 (c.withOnce once) 0 (visit c).2 0) ∧
    (∃ added, Extends added c (visit c).2 ∧
      added.Ordered t (fun p => v.path <:+ p) (visit c).2.frame.plan.id) ∧ Yields v c (visit c).2

section

variable {visit : Lower Unit} (hvisit : Arranges t visit) {c : Context} (hc : Collecting c)
  (hvalid : ∀ v, c.frame.node = some v → v.Valid t)

include hvisit hc hvalid

theorem arranges_afterNested {r : Visited} (hr : r.Valid t) (hfragment : ∃ path children loc,
    r = .node path (.fragment children loc)) :
    (Supplies (blockRule t) 0 c 0 (afterNested visit r c) (·.block (exitBlock (visit (enterNested r c)).2).1) ∧
        (afterNested visit r c).frame.plan.id = c.frame.plan.id) ∧
      Idle 0 c (afterNested visit r c) ∧ (afterNested visit r c).accounts = c.accounts := by
  obtain ⟨path, children, loc, rfl⟩ := hfragment
  let r : Visited := .node path (.fragment children loc)
  have hsound : Sound t (enterNested r c) := .below (c := c) rfl hr rfl hvalid
  obtain ⟨⟨once, hmore, hinner⟩, ⟨added, hext, hordered⟩, haccounts, haligned⟩ :=
    hvisit _ r ((grows_enterNested r c).collecting hc) hsound rfl rfl
  have hview : (visit (enterNested r c)).2.view = added := by
    rw [hext.view]
    exact added.empty_append
  have hsaved : (visit (enterNested r c)).2.saved ≠ [] := by
    intro hnil
    have hsame := hext.saved
    rw [hnil] at hsame
    cases hsame
  rw [NodePlan.handsBack_outline] at haccounts
  have hholds : Holds t r (visit (enterNested r c)).2 :=
    ⟨hr, rfl, (List.cons.inj haccounts).1, haligned⟩
  have hleave := (accounts_exitBlock hsaved).1
  rw [haccounts] at hleave
  exact ⟨supplies_nested hinner hmore
      ⟨inOrder_exitBlock hsaved (hview ▸ hordered), r, hholds.givesBack hsaved⟩,
    idle_nested hext, (mute_popFrame _).trans hleave⟩

theorem arranges_afterChild {s : Visited} (hs : s.Valid t) (isFragment : Bool) (index : Nat) :
    Supplies (blockRule t) 0 c 0 (afterChild visit isFragment s index c) 0 ∧
      ∃ added o, Extends added c (afterChild visit isFragment s index c) ∧
        added.Ordered t (fun p => s.path <:+ p) none ∧ added.outlines = [o] ∧
        (afterChild visit isFragment s index c).accounts = (c.block.loc, c.block.returns ++
          (o.handsBack s ++ if isFragment then o.given else [])) :: c.accounts.tail := by
  have hsound : Sound t (c.enterChild s index) := .below (c := c) rfl hs rfl hvalid
  obtain ⟨⟨once, hmore, hinner⟩, ⟨added, hext, hordered⟩, haccounts, -⟩ :=
    hvisit _ s ((grows_enterChild s index c).collecting hc) hsound rfl rfl
  have hmore : c.frame.once = true → once = true := hmore
  refine ⟨supplies_takeChild hmore isFragment hinner, _, _, extends_takeChild hext isFragment, ?_, rfl, ?_⟩
  · generalize (visit (c.enterChild s index)).2 = c₁ at hext hordered
    have hkept : Idle 0 c₁ (if isFragment then (addToBlock c₁).2 else c₁) ∧
        KeepsNumber c₁ (if isFragment then (addToBlock c₁).2 else c₁) := by
      split
      · exact ⟨(does_addToBlock.idling rfl c₁).1, keepsNumber_addToBlock c₁⟩
      · exact ⟨.refl c₁, Or.inl rfl⟩
    generalize (if isFragment then (addToBlock c₁).2 else c₁) = c₂ at hkept
    obtain ⟨hidle, hnumber⟩ := hkept
    have houtlines : c₂.frame.plan.children.map NodePlan.outline = added.outlines := by
      have hview : c₂.view = (c.enterChild s index).view.append (added.append .empty) :=
        (hext.trans hidle.extended).view
      rw [View.append_empty] at hview
      exact congrArg View.outlines hview
    rw [NodePlan.outline_eq, houtlines]
    exact (hordered.number hnumber).node _ _ _
  · have hne : (visit (c.enterChild s index)).2.outer ≠ [] := by
      intro hnil
      have haround := hext.around
      rw [hnil] at haround
      cases haround
    rw [afterChild]
    generalize (visit (c.enterChild s index)).2 = c₁ at haccounts hne
    obtain ⟨parent, outer, houter⟩ := List.exists_cons_of_ne_nil hne
    rw [takeChild_eq houter]
    obtain ⟨haccount, hrest⟩ := List.cons.inj haccounts
    cases isFragment with
    | false =>
      simp only [Bool.false_eq_true, if_false, List.append_nil]
      exact haccounts
    | true =>
      have hchildren : (addToBlock c₁).2.frame.plan.outline.handsBack s =
          c₁.frame.plan.outline.handsBack s := by
        have hview := congrArg View.outlines (List.cons.inj (does_addToBlock.idling rfl c₁).1.views).1
        have hview : (addToBlock c₁).2.frame.plan.children.map NodePlan.outline =
            c₁.frame.plan.children.map NodePlan.outline := hview
        rw [NodePlan.handsBack_outline, NodePlan.handsBack_outline, hview]
      simp only [if_true]
      rw [hchildren]
      refine Eq.trans (accounts_addToBlock c₁) ?_
      obtain ⟨hloc, hreturns⟩ := Prod.mk.inj haccount
      rw [hloc, hreturns, List.append_assoc]
      exact congrArg _ hrest

variable (hbalanced : Balanced visit)

include hbalanced

theorem arranges_nestedBlocks {roots : List Visited} (hroots : ∀ r ∈ roots, r.Valid t ∧
    ∃ path children loc, r = .node path (.fragment children loc)) :
    (Supplies (blockRule t) 0 c 0 (nestedBlocks visit roots c).2 (·.nested (nestedBlocks visit roots c).1) ∧
        (nestedBlocks visit roots c).2.frame.plan.id = c.frame.plan.id) ∧
      Idle 0 c (nestedBlocks visit roots c).2 ∧ (nestedBlocks visit roots c).2.accounts = c.accounts := by
  induction roots generalizing c with
  | nil => exact ⟨⟨.refl c _, rfl⟩, .refl c, rfl⟩
  | cons r roots ih =>
    obtain ⟨hr, hfragment⟩ := hroots r List.mem_cons_self
    obtain ⟨⟨hnested, hid⟩, hidle, haccounts⟩ := arranges_afterNested hvisit hc hvalid hr hfragment
    have hresumed := resumed_afterNested hbalanced hc r
    obtain ⟨⟨hrest, hid'⟩, hidle', haccounts'⟩ := ih (hresumed.grows.collecting hc) (hresumed.node ▸ hvalid)
      fun s hs => hroots s (List.mem_cons_of_mem _ hs)
    rw [nestedBlocks_collecting hbalanced hc]
    exact ⟨⟨hnested.trans (hrest.hold _), hid'.trans hid⟩, hidle.trans hidle', haccounts'.trans haccounts⟩

theorem arranges_lowerChildren (isFragment : Bool) (index : Nat) {children : List Visited}
    (hchildren : ∀ s ∈ children, s.Valid t)
    (hbefore : children.Pairwise fun a b => ∀ p q, a.path <:+ p → b.path <:+ q → Path.Before p q) :
    Supplies (blockRule t) 0 c 0 (lowerChildren visit isFragment index children c).2 0 ∧
      ∃ added, Extends added c (lowerChildren visit isFragment index children c).2 ∧
        added.Ordered t (fun p => ∃ s ∈ children, s.path <:+ p) none ∧
        added.outlines.length = children.length ∧
        (lowerChildren visit isFragment index children c).2.accounts = (c.block.loc,
          c.block.returns ++ Outline.handsBackOf added.outlines isFragment children) :: c.accounts.tail := by
  induction children generalizing index c with
  | nil =>
    refine ⟨.refl c _, _, .refl c, .of_work .empty, rfl, ?_⟩
    rw [Outline.handsBackOf_noNodes, List.append_nil]
    rfl
  | cons s children ih =>
    obtain ⟨hfirst, added, o, hext, hordered, hone, haccounts⟩ :=
      arranges_afterChild hvisit hc hvalid (hchildren s List.mem_cons_self) isFragment index
    have hresumed := resumed_afterChild hbalanced hc isFragment s index
    obtain ⟨hapart, hbefore'⟩ := List.pairwise_cons.mp hbefore
    obtain ⟨hrest, added', hext', hordered', hlength, haccounts'⟩ := ih (hresumed.grows.collecting hc)
      (hresumed.node ▸ hvalid) (index + 1) (fun s' hs' => hchildren s' (List.mem_cons_of_mem _ hs')) hbefore'
    rw [lowerChildren_collecting hbalanced hc]
    refine ⟨hfirst.trans hrest, _, hext.trans hext', ?_, ?_, ?_⟩
    · have hall := hordered.append hordered' fun p q hp ⟨s', hs', hq⟩ => hapart s' hs' p q hp hq
      refine hall.mono fun p hp => ?_
      rcases hp with hp | ⟨s', hs', hp⟩
      · exact ⟨s, List.mem_cons_self, hp⟩
      · exact ⟨s', List.mem_cons_of_mem _ hs', hp⟩
    · rw [View.append, hone, List.singleton_append, List.length_cons, List.length_cons, hlength]
    · obtain ⟨haccount, htail⟩ := List.cons.inj haccounts
      obtain ⟨hloc, hreturns⟩ := Prod.mk.inj haccount
      rw [haccounts', hloc, hreturns, View.append, hone, List.singleton_append, Outline.handsBackOf_cons,
        List.append_assoc, List.append_assoc]
      exact congrArg _ htail

theorem arranges_textStep (hparent : ∀ v, c.outer.head?.bind Frame.node = some v → v.Valid t) :
    Supplies (blockRule t) 0 c 0 (textStep visit c).2 0 ∧
      (∃ added, Extends added c (textStep visit c).2 ∧ added.IsWork) ∧
      (textStep visit c).2.accounts = c.accounts := by
  have hprepare := Fixed.compositional.calm does_prepareText rfl
  have hc₁ := (hprepare.grows c).collecting hc
  have hroots : ∀ r ∈ (prepareText c).1.roots, r.Valid t ∧
      ∃ path children loc, r = .node path (.fragment children loc) := by
    intro r hr
    obtain ⟨vs, hvs, hr⟩ := nested_of_mem_prepareText ⟨hvalid, hparent⟩ hr
    refine ⟨valid_of_mem_nestedRoots hvs hr, ?_⟩
    obtain ⟨path, e, roots, loc, n, i, -, -, rfl⟩ := mem_nestedRoots hr
    cases n <;> exact ⟨_, _, _, rfl⟩
  have hnode : ∀ v, (prepareText c).2.frame.node = some v → v.Valid t := by
    rw [hprepare.node c hc₁.goesOn]
    exact hvalid
  obtain ⟨hnested, hidle, haccounts⟩ := arranges_nestedBlocks hvisit hc₁ hnode hbalanced hroots
  obtain ⟨added, hext, hwork⟩ := does_prepareText.working rfl c
  obtain ⟨added', hext', hwork'⟩ := (does_finishText (prepareText c).1
    (nestedBlocks visit (prepareText c).1.roots (prepareText c).2).1).working rfl
    (nestedBlocks visit (prepareText c).1.roots (prepareText c).2).2
  refine ⟨supplies_textStep hnested, ?_⟩
  rw [textStep]
  exact ⟨⟨_, (hext.trans hidle.extended).trans hext', (hwork.append .empty).append hwork'⟩,
    (((does_finishText _ _).mute rfl _).trans haccounts).trans (does_prepareText.mute rfl c)⟩

theorem arranges_childrenStep (hv : c.frame.node = some v) :
    Supplies (blockRule t) 0 c 0 (childrenStep visit c).2 0 ∧
      ∃ added, Extends added c (childrenStep visit c).2 ∧
        added.Ordered t (fun p => ∃ s ∈ v.children, s.path <:+ p) none ∧
        (added.outlines = [] ∨ added.outlines.length = v.children.length) ∧
        (childrenStep visit c).2.accounts = (c.block.loc,
          c.block.returns ++ Outline.handsBackOf added.outlines v.isFragment v.children) :: c.accounts.tail := by
  obtain ⟨hlower, added, hext, hordered, hlength, haccounts⟩ := arranges_lowerChildren hvisit hc hvalid
    hbalanced v.isFragment 0 (fun s hs => (hvalid v hv).child hs) v.children_before
  refine ⟨supplies_childrenStep fun w hw => ?_, ?_⟩
  · obtain rfl := Option.some.inj (hv.symm.trans hw)
    exact hlower
  · obtain ⟨runs, heq, rfl | ⟨-, rfl⟩⟩ := childrenStep_eq visit hv
    · rw [heq]
      exact ⟨_, hext, hordered, Or.inr hlength, haccounts⟩
    · rw [heq]
      obtain ⟨work, hext', hwork⟩ := extends_insertionRuns
        (lowerChildren visit v.isFragment 0 v.children c).2
      have houtlines : (added.append work).outlines = added.outlines := by
        rw [View.append, hwork.outlines, List.append_nil]
      refine ⟨_, hext.trans hext', hordered.work hwork, ?_, ?_⟩
      · rw [houtlines]
        exact Or.inr hlength
      · rw [houtlines, ← haccounts]
        exact (does_insertRuns _).mute rfl _

theorem arranges_slots (hv : c.frame.node = some v) (hnone : c.frame.plan.children = []) :
    let c₄ := (childrenStep visit (slotStep c).2).2
    let c₅ := (runExits .none (slotStep c).1.reverse c₄).2
    Supplies (blockRule t) 0 c 0 c₅ 0 ∧
      (∃ added, Extends added c c₅ ∧ added.Ordered t (fun p => ∃ s ∈ v.children, s.path <:+ p) none) ∧
      Yields v c c₅ := by
  intro c₄ c₅
  let c₃ := (slotStep c).2
  have hnode : c₃.frame.node = c.frame.node := (hushing_slotStep c).node
  have hc₃ : Collecting c₃ := (does_slotStep.grows c).collecting hc
  have hc₄ : Collecting c₄ := ((fixed_childrenStep hbalanced).grows c₃).collecting hc₃
  obtain ⟨hchildren, added, hext, hordered, haligned, haccounts⟩ :=
    arranges_childrenStep hvisit hc₃ (hnode ▸ hvalid) hbalanced (hnode.trans hv)
  have hall : Supplies (blockRule t) 0 c 0 c₄ 0 := (does_slotStep.obeys rfl c).trans hchildren
  have hempty : c.frame.outlines = [] := by
    rw [Frame.outlines, hnone]
    rfl
  rcases bracketing_slotStep c with ⟨hidle, hexits⟩ | ⟨hidle, exit, hexits, hclosing⟩
  · have hrun : c₅ = c₄ := by simp only [c₅, hexits]; rfl
    obtain ⟨-, hsame, hcomponent⟩ := (accounts_slotStep hv).resolve_right fun h => h.1 hexits
    have hext' := hidle.extended.trans hext
    rw [View.empty_append] at hext'
    have houtlines : c₄.frame.outlines = added.outlines := by
      have hview : c₄.frame.outlines = c.frame.outlines ++ added.outlines :=
        congrArg View.outlines hext'.view
      rw [hview, hempty]
      rfl
    rw [hrun]
    refine ⟨hall, ⟨added, hext', hordered⟩, ?_, houtlines ▸ haligned⟩
    obtain ⟨hloc, hreturns⟩ := Prod.mk.inj (List.cons.inj hsame).1
    have hreturns : c₃.block.returns = c.block.returns := hreturns
    have hgiven : c₄.frame.plan.outline.handsBack v =
        Outline.handsBackOf added.outlines v.isFragment v.children := by
      rw [NodePlan.handsBack_outline, ← houtlines]
      split
      · next hcomp => rw [hcomponent hcomp, Outline.handsBackOf_noNodes]
      · rfl
    rw [hgiven]
    refine haccounts.trans ?_
    rw [hsame, ← hreturns]
    exact congrArg (fun loc => (loc, _) :: _) hloc
  · have hrun : c₅ = (runExit .none exit c₄).2 := by
      simp only [c₅, hexits, List.reverse_singleton]
      rw [runExits_cons, if_neg (by simp [hc₄.goesOn])]
      rfl
    obtain ⟨-, hentered, hfragment⟩ := (accounts_slotStep hv).resolve_left fun h => by
      rw [hexits] at h
      cases h.1
    -- the block that is left holds what the children have added
    obtain ⟨hview, hsaved⟩ := List.cons.inj hidle.views
    have hview₄ : c₄.view = added := by
      rw [hext.view, hview]
      exact added.empty_append
    have houtlines : c₄.frame.outlines = added.outlines := congrArg View.outlines hview₄
    have hsaved₄ : c₄.saved.map SavedBlock.view = c.views := hext.saved.trans hsaved
    have hlength : c.saved.length < c₄.saved.length := by
      have hlengths := congrArg List.length hsaved₄
      simp only [Context.views, List.length_map, List.length_cons] at hlengths
      omega
    have hnil : c₄.saved ≠ [] := fun h => by simp [h] at hlength
    obtain ⟨haccount₃, htail₃⟩ := List.cons.inj hentered
    obtain ⟨hloc₃, hreturns₃⟩ := Prod.mk.inj haccount₃
    have hholds : Holds t v c₄ := by
      refine ⟨hvalid v hv, hfragment, ?_, houtlines ▸ haligned⟩
      rw [(List.cons.inj haccounts).1, houtlines]
      refine Prod.ext hloc₃ ?_
      show c₃.block.returns ++ _ = _
      rw [hreturns₃, hfragment]
      rfl
    have hcloses : (blockRule t).Closes c₄ := ⟨hall.effects_eq_nil hlength,
      inOrder_exitBlock hnil (hview₄ ▸ hordered.number (Or.inr rfl)), v, hholds.givesBack hnil⟩
    obtain ⟨middle, hclose, -⟩ := hexits ▸ opens_slotStep.unwinds c hc₃.goesOn
    rw [← (fixed_childrenStep hbalanced).kept c₃ hc₄.goesOn] at hclose
    have hleave := departs_runExit hclosing hnil
    have hleft := accounts_runExit hclosing hnil
    rw [← hrun] at hleave hleft
    have hback : c₅.accounts = c.accounts := by
      rw [hleft, haccounts]
      exact htail₃
    have hviews : c₅.views = c.views := by
      rw [hleave.views, Context.views, List.tail_cons, hsaved₄]
    have hidle' : Idle 0 c c₅ :=
      ⟨(hidle.toUndisturbed.trans hext.toUndisturbed).trans hleave.toUndisturbed, hviews⟩
    have hnothing : c₅.frame.plan.children.map NodePlan.outline = [] :=
      (congrArg View.outlines (List.cons.inj hviews).1).trans hempty
    refine ⟨?_, ⟨_, hidle'.extended, .of_work .empty⟩, ?_, Or.inl hnothing⟩
    · have hleft := hall.trans (supplies_runExit hclose fun _ => hcloses)
      rw [← hrun] at hleft
      exact hleft.settle (Nat.le_of_eq (by rw [hidle'.length_saved, Nat.zero_add]))
    · rw [hback, NodePlan.handsBack_outline, hnothing, Outline.handsBackOf_nil, ite_self, List.append_nil]
      rfl

end

/-! ## The end of a visit -/

section

variable {within : Path → Prop} {start c c' : Context}

/-- Whether the current block was entered for a node since a state, and those in between for others. Nothing
was added to the ones in between. -/
structure Pending (t : Template) (start : Context) (w : Visited) (ws : List Visited) (c : Context) : Prop where
  holds : Holds t w c
  others : ∀ u ∈ ws, u.Valid t ∧ u.isFragment = true
  accounts : c.accounts.tail = ws.map Visited.account ++ start.accounts
  views : c.saved.map SavedBlock.view = List.replicate ws.length .empty ++ start.views

/-- Whether all was added to the block that was current in a state, or to one that was entered since, and
sets properties in order. -/
def Rises (t : Template) (within : Path → Prop) (v : Visited) (start c : Context) : Prop :=
  (∃ added, Extends added start c ∧ added.Ordered t within c.frame.plan.id ∧ Yields v start c) ∨
  (Undisturbed start c ∧ c.view.Ordered t within c.frame.plan.id ∧ ∃ w ws, Pending t start w ws c)

theorem outlines_of_idle {entered : Nat} (h : Idle entered c c') (hc : c.frame.outlines = []) :
    c'.frame.outlines = [] := by
  cases entered with
  | zero => exact (congrArg View.outlines (List.cons.inj h.views).1).trans hc
  | succ entered => exact congrArg View.outlines (List.cons.inj h.views).1

theorem rises_of_begins {ws : List Visited} {v₁ : Visited} {c₁ c₂ : Context} {added : View}
    (hidle : Idle ws.length start c₁) (haccounts₁ : c₁.accounts = ws.map Visited.account ++ start.accounts)
    (hws : ∀ w ∈ ws, w.Valid t ∧ w.isTemplateLike = true) (hv₁ : some v₁ = ws.head?.or (some v))
    (haccounts₂ : c₂.accounts = c₁.accounts) (hyields : Yields v₁ c₂ c) (hundisturbed : Undisturbed c₁ c)
    (hsaved : c.saved.map SavedBlock.view = c₁.saved.map SavedBlock.view)
    (hview : c.view = c₁.view.append added) (hordered : added.Ordered t within c.frame.plan.id) :
    Rises t within v start c := by
  have hundisturbed := hidle.toUndisturbed.trans hundisturbed
  obtain ⟨haccount, htail⟩ := List.cons.inj hyields.accounts
  have haccounts := haccounts₂.trans haccounts₁
  cases ws with
  | nil =>
    obtain rfl : v₁ = v := Option.some.inj hv₁
    obtain ⟨hblock, hrest⟩ := List.cons.inj haccounts
    obtain ⟨hloc, hreturns⟩ := Prod.mk.inj hblock
    have hstart : c₁.view = start.view ∧ c₁.saved.map SavedBlock.view = start.saved.map SavedBlock.view :=
      List.cons.inj hidle.views
    refine Or.inl ⟨added, ⟨hundisturbed, hstart.1 ▸ hview, hsaved.trans hstart.2⟩, hordered, ?_,
      hyields.aligned⟩
    rw [hyields.accounts, hloc, hreturns]
    exact congrArg _ hrest
  | cons w ws =>
    obtain rfl : v₁ = w := Option.some.inj hv₁
    obtain ⟨hvalid, htemplate⟩ := hws v₁ List.mem_cons_self
    obtain ⟨hblock, hrest⟩ := List.cons.inj haccounts
    obtain ⟨hloc, hreturns⟩ := Prod.mk.inj hblock
    obtain ⟨hfragment, hcomponent⟩ := Visited.fragment_of_templateLike htemplate
    have hstart : c₁.view = .empty ∧
        c₁.saved.map SavedBlock.view = List.replicate ws.length .empty ++ start.views :=
      List.cons.inj hidle.views
    refine Or.inr ⟨hundisturbed, ?_, v₁, ws, ⟨hvalid, hfragment, ?_, hyields.aligned⟩, fun u hu => ?_, ?_,
      hsaved.trans hstart.2⟩
    · rw [hview, hstart.1, View.empty_append]
      exact hordered
    · rw [haccount, hloc, hreturns, NodePlan.handsBack_outline, hcomponent, hfragment]
      rfl
    · obtain ⟨hvalid, htemplate⟩ := hws u (List.mem_cons_of_mem _ hu)
      exact ⟨hvalid, (Visited.fragment_of_templateLike htemplate).1⟩
    · rw [hyields.accounts]
      exact hrest

theorem Rises.work (h : Rises t within v start c) {added : View} (hext : Extends added c c')
    (hwork : added.IsWork) (hnumber : KeepsNumber c c') (haccounts : c'.accounts = c.accounts) :
    Rises t within v start c' := by
  have houtlines : c'.frame.outlines = c.frame.outlines := by
    have hview := congrArg View.outlines hext.view
    rw [View.append, hwork.outlines, List.append_nil] at hview
    exact hview
  rcases h with ⟨added', hext', hordered, hyields⟩ | ⟨hundisturbed, hordered, w, ws, h⟩
  · exact Or.inl ⟨_, hext'.trans hext, (hordered.work hwork).number hnumber, hyields.same haccounts houtlines⟩
  · refine Or.inr ⟨hundisturbed.trans hext.toUndisturbed, ?_, w, ws, h.holds.same haccounts houtlines,
      h.others, haccounts ▸ h.accounts, hext.saved.trans h.views⟩
    rw [hext.view]
    exact (hordered.work hwork).number hnumber

theorem Rises.pending (h : Rises t within v start c) (hlt : start.saved.length < c.saved.length) :
    Undisturbed start c ∧ c.view.Ordered t within c.frame.plan.id ∧ ∃ w ws, Pending t start w ws c := by
  rcases h with ⟨added, hext, -⟩ | h
  · have hlengths := congrArg List.length hext.saved
    simp only [List.length_map] at hlengths
    omega
  · exact h

theorem Pending.departs {ws : List Visited} (h : Pending t start w ws c)
    (hstart : start.frame.outlines = []) (haccounts : c'.accounts = c.accounts.tail)
    (hundisturbed : Undisturbed start c) (hleave : Departs c c') : Rises t within v start c' := by
  have haccounts' := haccounts.trans h.accounts
  have hviews : c'.views = List.replicate ws.length .empty ++ start.views := hleave.views.trans h.views
  have hidle : Idle ws.length start c' := ⟨hundisturbed.trans hleave.toUndisturbed, hviews⟩
  have houtlines := outlines_of_idle hidle hstart
  have hchildren : c'.frame.plan.children.map NodePlan.outline = [] := houtlines
  cases ws with
  | nil =>
    refine Or.inl ⟨_, hidle.extended, .of_work .empty, ?_, Or.inl houtlines⟩
    rw [NodePlan.handsBack_outline, hchildren, Outline.handsBackOf_nil, ite_self, List.append_nil]
    exact haccounts'
  | cons u ws =>
    obtain ⟨hview, hrest⟩ := List.cons.inj hviews
    have hu := h.others u List.mem_cons_self
    refine Or.inr ⟨hidle.toUndisturbed, by rw [hview]; exact .of_work .empty, u, ws,
      ⟨hu.1, hu.2, ?_, Or.inl houtlines⟩, fun x hx => h.others x (List.mem_cons_of_mem _ hx), ?_, hrest⟩
    · rw [houtlines, Outline.handsBackOf_nil]
      exact (List.cons.inj haccounts').1
    · rw [haccounts']
      rfl

theorem arranges_runExits {exits : List Exit} (hothers : ∀ exit ∈ exits, exit.isElement = false)
    (hstart : start.frame.outlines = []) (hall : Supplies (blockRule t) 0 start 0 c 0)
    (hrises : Rises t within v start c) (hc : Collecting c) (hu : Unwinds exits c.stacks start.stacks) :
    Supplies (blockRule t) 0 start 0 (runExits .none exits c).2 0 ∧
      (∃ added, Extends added start (runExits .none exits c).2 ∧
        added.Ordered t within (runExits .none exits c).2.frame.plan.id) ∧
      Yields v start (runExits .none exits c).2 := by
  induction exits generalizing c with
  | nil =>
    have hsaved : c.saved = start.saved := congrArg Stacks.saved hu
    rcases hrises with ⟨added, hext, hordered, hyields⟩ | ⟨-, -, w, ws, h⟩
    · exact ⟨hall, ⟨added, hext, hordered⟩, hyields⟩
    · have hlengths := congrArg List.length h.views
      simp only [Context.views, List.length_map, List.length_append, List.length_replicate,
        List.length_cons, hsaved] at hlengths
      omega
  | cons exit exits ih =>
    obtain ⟨middle, hclose, hrest⟩ := hu
    obtain ⟨hown, hlen⟩ := Exit.Closes.length_saved hclose
    have hle : start.saved.length ≤ middle.saved.length := Unwinds.length_saved_le hrest
    have hlen : c.saved.length = middle.saved.length + exit.isClosing.toNat := hlen
    have hlt : exit.isClosing = true → start.saved.length < c.saved.length := by
      intro hclosing
      rw [hclosing, Bool.toNat_true] at hlen
      omega
    have hnil : exit.isClosing = true → c.saved ≠ [] := fun hclosing h => by simpa [h] using hlt hclosing
    have hstacks := (stacks_runExit hclose).1
    have hc' : Collecting (runExit .none exit c).2 := by
      have hgrows : Grows c (runExits .none [exit] c).2 := growing_runExits (by simpa using hown) c
      rw [runExits_cons, if_neg (by simp [hc.goesOn])] at hgrows
      exact hgrows.collecting hc
    rw [runExits_cons, if_neg (by simp [hc.goesOn])]
    refine ih (fun e he => hothers e (List.mem_cons_of_mem _ he)) ?_ ?_ hc' (hstacks ▸ hrest)
    · have hcloses : exit.isClosing = true → (blockRule t).Closes c := by
        intro hclosing
        obtain ⟨-, hordered, w, ws, h⟩ := hrises.pending (hlt hclosing)
        exact ⟨hall.effects_eq_nil (hlt hclosing), inOrder_exitBlock (hnil hclosing) hordered, w,
          h.holds.givesBack (hnil hclosing)⟩
      refine (hall.trans (supplies_runExit hclose hcloses)).settle ?_
      have hsaved : (runExit .none exit c).2.saved = middle.saved := congrArg Stacks.saved hstacks
      rw [hsaved]
      exact hle
    · by_cases hclosing : exit.isClosing = true
      · obtain ⟨hundisturbed, -, w, ws, h⟩ := hrises.pending (hlt hclosing)
        exact h.departs hstart (accounts_runExit hclosing (hnil hclosing)) hundisturbed
          (departs_runExit hclosing (hnil hclosing))
      · cases exit with
        | reference value =>
          obtain ⟨added, hext, hwork⟩ := (does_exitReference value).working rfl c
          exact hrises.work hext hwork (keepsNumber_of_numbering (((does_exitReference value).plain rfl).tidy c).number)
            ((does_exitReference value).mute rfl c)
        | element cursor => cases hothers _ List.mem_cons_self
        | added run => cases hown
        | _ => exact absurd rfl hclosing

end

theorem arranges_lowerNode (t : Template) (depth : Nat) : Arranges t (lowerNode .none depth) := by
  induction depth with
  | zero =>
    intro c v _ _ _ hnone
    refine ⟨⟨c.frame.once, id, .refl c _⟩, ⟨_, .refl c, .of_work .empty⟩, ?_, Or.inl ?_⟩
    · show c.accounts = _ :: _
      rw [NodePlan.handsBack_outline]
      show c.accounts = (c.block.loc, c.block.returns ++ (if _ then _ else
        Outline.handsBackOf (c.frame.plan.children.map _) _ _)) :: _
      rw [hnone, List.map_nil, Outline.handsBackOf_nil, ite_self, List.append_nil]
      rfl
    · show c.frame.plan.children.map _ = []
      rw [hnone]
      rfl
  | succ depth ih =>
    intro c v hc hsound hv hnone
    have hbalanced := balanced_lowerNode depth
    have hempty : c.frame.outlines = [] := by
      rw [Frame.outlines, hnone]
      rfl
    -- the walk comes to the node
    have hstart : (onceStep c).2 = c.withOnce (c.frame.once || c.startsOnce) := onceStep_eq c
    have hcomes : Supplies (blockRule t) 0 (onceStep c).2 0 (approach c).2 0 :=
      ((does_conditionStep.obeys rfl _).trans (does_loopStep.obeys rfl _)).trans (does_referenceStep.obeys rfl _)
    obtain ⟨⟨ws, henters⟩, others, hleft⟩ := enters_approach c
    have hidle := henters.idle
    obtain ⟨cursor, others', hleft', hothers⟩ := approach_exits c
    obtain ⟨-, rfl⟩ : cursor = _ ∧ others' = others := by simpa using hleft'.symm.trans hleft
    have haccounts₁ := henters.accounts
    have hnode₁ := henters.node
    have hws := henters.valid t hsound.node
    have hunwinds := unwinds_approach hc
    have hresult := congrArg Prod.snd (lowerNode_collecting hc (by rw [hv]; rfl) depth)
    have hnears := nears_approach c
    have hc₁ := hnears.grows.collecting hc
    obtain ⟨v₁, hv₁, hpath⟩ := hnears.path hv
    have hvalid₁ : ∀ w, (approach c).2.frame.node = some w → w.Valid t := fun w hw =>
      hnears.valid hv hw (hsound.node v hv)
    have hparent := hnears.outer ▸ hsound.parent
    have hempty₁ : (approach c).2.frame.outlines = [] := outlines_of_idle hidle hempty
    rw [hleft] at hunwinds
    simp only [run_bind, hleft] at hresult
    rw [hstart] at hcomes
    generalize (approach c).2 = c₁ at *
    -- it lowers the elements inside expressions
    have htexts := fixed_textStep hbalanced
    obtain ⟨hsup₂, ⟨work, hext₂, hwork⟩, haccounts₂⟩ := arranges_textStep ih hc₁ hvalid₁ hbalanced hparent
    have hc₂ := (htexts.grows c₁).collecting hc₁
    have hnode₂ := htexts.node c₁ hc₂.goesOn
    have hstacks₂ := htexts.kept c₁ hc₂.goesOn
    have hnone₂ : (textStep (lowerNode .none depth) c₁).2.frame.plan.children = [] := by
      have hview := congrArg View.outlines hext₂.view
      rw [View.append, hwork.outlines, List.append_nil] at hview
      exact List.map_eq_nil_iff.mp (hview.trans hempty₁)
    generalize (textStep (lowerNode .none depth) c₁).2 = c₂ at *
    -- it visits the children, in the slots if there are any
    obtain ⟨hsup₅, ⟨added, hext₅, hordered⟩, hyields⟩ :=
      arranges_slots ih hc₂ (hnode₂ ▸ hvalid₁) hbalanced (hnode₂.trans hv₁) hnone₂
    have hresumed := resumed_slots hbalanced hc₂
    rw [runExits_append] at hresult
    generalize (runExits .none (slotStep c₂).1.reverse
      (childrenStep (lowerNode .none depth) (slotStep c₂).2).2).2 = c₅ at *
    have hc₅ := hresumed.grows.collecting hc₂
    have hv₅ : c₅.frame.node = some v₁ := hresumed.node.trans (hnode₂.trans hv₁)
    -- it finishes the element, with the settings where the block ended when it came
    have hback := hext₂.trans hext₅
    generalize hcursor : (⟨some c₁.block.effects.length, some c₁.block.operations.length⟩ : Cursor) = cursor at *
    obtain ⟨hundisturbed, hsaved₆, added', hview₆, houtlines₆, hordered'⟩ :=
      ordered_exitElement hv₅ (hvalid₁ v₁ hv₁) hback.view (hordered.behindWork hwork) hcursor.symm
    obtain ⟨middle, rfl, hrest⟩ := hunwinds
    rw [runExits_cons, if_neg (by simp [hc₅.goesOn])] at hresult
    have hresult : (lowerNode .none (depth + 1) c).2 =
        (runExits .none others' (exitElement .none cursor c₅).2).2 := hresult
    have hclose : (Exit.element cursor).Closes c₅.stacks c₁.stacks := hresumed.kept.trans hstacks₂
    have hstacks₆ : (exitElement .none cursor c₅).2.stacks = c₁.stacks := (stacks_runExit hclose).1
    have hsup₆ := ((hcomes.trans hsup₂).trans hsup₅).trans (obeys_exitElement cursor c₅)
    have hc₆ := ((does_exitElement cursor).grows c₅).collecting hc₅
    have houtlines : (exitElement .none cursor c₅).2.frame.outlines = c₅.frame.outlines :=
      (congrArg View.outlines hview₆).trans
        ((congrArg (c₁.view.outlines ++ ·) houtlines₆).trans (congrArg View.outlines hback.view).symm)
    have hyields₆ := hyields.same ((does_exitElement cursor).mute rfl c₅) houtlines
    rw [hresult]
    generalize (exitElement .none cursor c₅).2 = c₆ at *
    -- it does what else is left to do
    have hidle' : Idle ws.length (c.withOnce (c.frame.once || c.startsOnce)) c₁ :=
      ⟨⟨hidle.around, hidle.overrun⟩, hidle.views⟩
    have hrises := rises_of_begins hidle' haccounts₁ hws (hv₁.symm.trans (hnode₁.trans (by rw [hv])))
      haccounts₂ hyields₆ (hback.toUndisturbed.trans hundisturbed) (hsaved₆.trans hback.saved) hview₆
      (hpath ▸ hordered')
    have hempty' : (c.withOnce (c.frame.once || c.startsOnce)).frame.outlines = [] := hempty
    obtain ⟨hsup, ⟨added, hext, hordered⟩, hyields⟩ := arranges_runExits (fun exit he => (hothers exit he).2)
      hempty' hsup₆ hrises hc₆ (hstacks₆ ▸ hrest)
    exact ⟨⟨_, fun ho => by rw [ho]; rfl, hsup⟩,
      ⟨added, ⟨⟨hext.around, hext.overrun⟩, hext.view, hext.saved⟩, hordered⟩, hyields.accounts, hyields.aligned⟩

end Lower

/-! ## Results -/

/-- If mistakes are collected, properties are set in the order of the document, in every block, both among
the operations that are carried out once and among those that are carried out again. The properties of one
element are set in the order of its attributes, each where its key stands first. Nothing is ever put behind
the end of a list. -/
theorem properties_set_in_document_order (o : LoweringOptions) (t : Template) (ho : o.collectErrors = true) :
    (∀ b, Part.block b ∈ (t.lower o .none).finish.block.parts → b.InOrder t) ∧
    (∀ (tag : Tag) (element : Nat), ((tag.settings element).filterMap Setting.key?).Sublist tag.keys) ∧
    (t.lower o .none).overrun = false := by
  obtain ⟨⟨once, -, hwalk⟩, ⟨added, hext, hordered⟩, -⟩ := Lower.arranges_lowerNode t t.depth
    (Context.ofTemplate o t) (.root t) ⟨ho, rfl⟩ (sound_ofTemplate o t) rfl rfl
  have hwalk : Supplies (blockRule t) 0 ((Context.ofTemplate o t).withOnce once) 0 (t.lower o .none) 0 :=
    hwalk
  have hview : (t.lower o .none).view = added := hext.view.trans added.empty_append
  refine ⟨fun b hb => ?_, Tag.keys_settings, hext.overrun⟩
  rcases mem_parts_of_mem_finish hb with heq | hmem
  · obtain rfl := Part.block.inj heq
    have hordered : (t.lower o .none).view.Ordered t _ (t.lower o .none).frame.plan.id := hview ▸ hordered
    exact View.Ordered.inOrder hordered
  · exact (hwalk.allows_of_mem (fun W => W.context_ofTemplate o t) hmem).1

/-- The properties of an element are set before those of the elements inside it, which are finished
before. -/
theorem properties_set_in_document_order_nested :
    let item := fun name content =>
      TagItem.attribute ⟨name, none, .stub, some ⟨content, false, .stub⟩, .stub⟩
    let o : LoweringOptions := ⟨true, fun _ => false⟩
    let inner : Node := .element ⟨"p", .element, [item "id" "x", item "title" "y"], true, .stub⟩ []
    let t : Template :=
      ⟨"", [.element ⟨"div", .element, [item "id" "z"], false, .stub⟩ [inner, inner]], .stub⟩
    let b := (t.lower o .none).finish.block
    o.collectErrors = true ∧ b.effects.length = 5 ∧ b.effects.all Effect.isProperty = true ∧
      Part.block b ∈ b.parts ∧ b.InOrder t ∧ (t.lower o .none).overrun = false := by
  intro item o inner t b
  have hb : Part.block b ∈ b.parts := by
    rw [Block.parts_eq]
    exact List.mem_cons_self
  obtain ⟨hblocks, -, hoverrun⟩ := properties_set_in_document_order o t rfl
  exact ⟨rfl, by decide +kernel, by decide +kernel, hb, hblocks b hb, hoverrun⟩

/-- If mistakes are collected, every block is made for a node, and gives back the children of the node that
are rendered in their place, in the order of the document. Before each of them it gives back what stands in
fragments and templates below it, apart from those that have a block of their own. So it gives back exactly
the nodes on top of it if there are no fragments and templates below them. -/
theorem blocks_give_back_their_top_nodes (o : LoweringOptions) (t : Template) (ho : o.collectErrors = true)
    (b : Block) (hb : Part.block b ∈ (t.lower o .none).finish.block.parts) :
    ∃ v : Visited, b.GivesBack t v ∧ b.tops.Sublist b.returns ∧
      ((∀ s ∈ v.children, t.IsSolidAt s.path) → b.returns = b.tops) := by
  obtain ⟨⟨once, -, hwalk⟩, -, haccounts, haligned⟩ := Lower.arranges_lowerNode t t.depth
    (Context.ofTemplate o t) (.root t) ⟨ho, rfl⟩ (sound_ofTemplate o t) rfl rfl
  have hwalk : Supplies (blockRule t) 0 ((Context.ofTemplate o t).withOnce once) 0 (t.lower o .none) 0 :=
    hwalk
  have hgives : ∃ v, b.GivesBack t v := by
    rcases mem_parts_of_mem_finish hb with heq | hmem
    · obtain rfl := Part.block.inj heq
      rw [NodePlan.handsBack_outline] at haccounts
      obtain ⟨hloc, hreturns⟩ := Prod.mk.inj (List.cons.inj haccounts).1
      rw [Frame.outlines, List.map_eq_nil_iff, List.length_map] at haligned
      exact ⟨.root t, rfl, rfl, hloc, haligned, hreturns⟩
    · exact (hwalk.allows_of_mem (fun W => W.context_ofTemplate o t) hmem).2
  obtain ⟨v, hv⟩ := hgives
  exact ⟨v, hv, hv.tops_sublist, hv.returns_of_solid⟩

/-- What stands in a template inside an element is given back before the element. -/
theorem blocks_give_back_their_top_nodes_template :
    let o : LoweringOptions := ⟨true, fun _ => false⟩
    let leaf : Node := .element ⟨"p", .element, [], true, .stub⟩ []
    let t : Template := ⟨"", [.element ⟨"div", .element, [], false, .stub⟩
      [.element ⟨"template", .template, [], false, .stub⟩ [leaf]], leaf], .stub⟩
    let b := (t.lower o .none).finish.block
    o.collectErrors = true ∧ Part.block b ∈ b.parts ∧ b.returns = [0, 1, 2] ∧ b.tops = [1, 2] ∧
      ∃ v : Visited, b.GivesBack t v ∧ b.tops.Sublist b.returns ∧
        ((∀ s ∈ v.children, t.IsSolidAt s.path) → b.returns = b.tops) := by
  intro o leaf t b
  have hb : Part.block b ∈ b.parts := by
    rw [Block.parts_eq]
    exact List.mem_cons_self
  exact ⟨rfl, hb, by decide +kernel, by decide +kernel, blocks_give_back_their_top_nodes o t rfl b hb⟩

/-- A block may give back more than the nodes on top of it. -/
theorem nested_template_given_back :
    let o : LoweringOptions := ⟨true, fun _ => false⟩
    let leaf : Node := .element ⟨"p", .element, [], true, .stub⟩ []
    let t : Template := ⟨"", [.element ⟨"div", .element, [], false, .stub⟩
      [.element ⟨"template", .template, [], false, .stub⟩ [leaf]]], .stub⟩
    (t.lower o .none).finish.block.returns = [0, 1] ∧ (t.lower o .none).finish.block.tops = [1] ∧
      (t.lower o .none).errors = [] := by decide +kernel

end JsxTemplate
