import JsxTemplate.Proofs.Lowering.Arrival

/-!
# Rules for the plan of a node

Some rules (`PlanRule`) hold of a fresh node, and are about no more than what makes the node and what is
below it. The walk keeps them until it visits the children (`heeds_of_arrives`). So when the walk comes to
the children of a node, none has been visited; and a node stands for a condition only after the first
branch of the condition was finished (`unbranched_lowerBody`).
-/

namespace JsxTemplate

/-- The condition that a node stands for. -/
def NodePlan.branch? (n : NodePlan) : Option Branch :=
  match n.operation with
  | some (.branch b _) => some b
  | _ => none

/-- A rule for what makes a node, and for what is below it. -/
structure PlanRule (Q : NodePlan → Prop) : Prop where
  empty : Q .empty
  same {n m : NodePlan} (hop : m.operation = n.operation) (hchildren : m.children = n.children) : Q n → Q m
  made {n : NodePlan} {op : Operation} (hop : ∀ b into, op ≠ .branch b into) :
    Q n → Q { n with operation := some op }

theorem PlanRule.unbranched : PlanRule fun n => n.branch? = none where
  empty := rfl
  same := fun hop _ h => by rwa [NodePlan.branch?, hop]
  made := fun {n op} hop _ => by
    cases op with
    | branch b into => exact absurd rfl (hop b into)
    | _ => rfl

theorem PlanRule.childless : PlanRule fun n => n.children = [] where
  empty := rfl
  same := fun _ hchildren h => hchildren.trans h
  made := fun _ h => h

/-- Whether a rule holds of the current node, and of those whose blocks were put aside. -/
structure Heeds (Q : NodePlan → Prop) (c : Context) : Prop where
  plan : Q c.frame.plan
  saved : ∀ s ∈ c.saved, Q s.plan

theorem Heeds.of_eq {Q : NodePlan → Prop} {c c' : Context} (h : Heeds Q c) (hQ : PlanRule Q)
    (hop : c'.frame.plan.operation = c.frame.plan.operation)
    (hchildren : c'.frame.plan.children = c.frame.plan.children) (hsaved : c'.saved = c.saved) :
    Heeds Q c' :=
  ⟨hQ.same hop hchildren h.plan, hsaved ▸ h.saved⟩

def Deed.isMindful : Deed → Bool
  | .branch | .children => false
  | _ => true

theorem Deed.Changes.heeds {Q : NodePlan → Prop} {c c' : Context} {d : Deed} (h : Changes c d c')
    (hQ : PlanRule Q) (hd : d.isMindful = true) (hheeds : Heeds Q c) : Heeds Q c' := by
  cases h with
  | branch | children => cases hd
  | operation hop => exact ⟨hQ.made hop hheeds.plan, hheeds.saved⟩
  | work _ h | inset _ _ h => cases h <;> exact hheeds.of_eq hQ rfl rfl rfl
  | attach | give =>
    rw [Lower.modifyParent_run]
    exact hheeds.of_eq hQ rfl rfl rfl
  | enter loc isLoop =>
    refine ⟨hQ.empty, fun s hs => ?_⟩
    rcases List.mem_cons.mp hs with rfl | hs
    · exact hheeds.plan
    · exact hheeds.saved s hs
  | leave =>
    rcases hs : c.saved with _ | ⟨s, saved⟩
    · obtain ⟨template, pieces, -, heq⟩ := Lower.exitBlock_of_nil hs
      rw [heq]
      exact hheeds.of_eq hQ rfl rfl rfl
    · obtain ⟨template, pieces, -, heq⟩ := Lower.exitBlock_of_saved hs
      rw [heq]
      have hsaved := hs ▸ hheeds.saved
      exact ⟨hsaved s List.mem_cons_self, fun s' hs' => hsaved s' (List.mem_cons_of_mem _ hs')⟩
  | _ => exact hheeds.of_eq hQ rfl rfl rfl

namespace Lower

def Heeding (Q : NodePlan → Prop) {α : Type} (x : Lower α) : Prop := ∀ c, Heeds Q c → Heeds Q (x c).2

section

variable {c : Context}

variable {Q : NodePlan → Prop} (hQ : PlanRule Q)

include hQ

theorem Does.heeding {α : Type} {deeds : List Deed} {x : Lower α} (h : Does deeds x)
    (hd : deeds.all Deed.isMindful = true) : Heeding Q x :=
  h.related (R := fun c c' => Heeds Q c → Heeds Q c') (fun _ => id) (fun h h' => h' ∘ h)
    fun d hmem _ _ hc => hc.heeds hQ (List.all_eq_true.mp hd d hmem)

theorem heeding_enterBody : Heeding Q enterBody := fun c h =>
  does_referenceStep.heeding hQ rfl _ (does_loopStep.heeding hQ rfl c h)

theorem heeding_runExit {exit : Exit} (hown : exit.isOwn = true) (hbranch : isBranch exit = false) :
    Heeding Q (runExit .none exit) := by
  refine (does_runExit hown).heeding hQ ?_
  cases exit with
  | branch id condition => cases hbranch
  | _ => rfl

theorem heeding_runExits {exits : List Exit}
    (h : ∀ exit ∈ exits, exit.isOwn = true ∧ isBranch exit = false) :
    Heeding Q (runExits .none exits) :=
  related_runExits (R := fun c c' => Heeds Q c → Heeds Q c') (fun _ => id) (fun h h' => h' ∘ h)
    fun exit he => heeding_runExit hQ (h exit he).1 (h exit he).2

omit hQ in
theorem heeding_insertRuns (runs : List (List Nat × RunPlace)) :
    Heeding (fun n => n.branch? = none) (insertRuns runs) := by
  intro c h
  have hkept := (does_insertRuns runs).same (f := fun c => (c.frame.plan.operation, c.saved))
    (fun d hd _ _ hc => by cases hc <;> first | rfl | exact absurd hd (by decide)) c
  obtain ⟨hop, hsaved⟩ := Prod.mk.inj hkept
  exact ⟨by rw [NodePlan.branch?, hop]; exact h.plan, fun s hs => h.saved s (hsaved ▸ hs)⟩

section

variable {visit : Lower Unit} (hminds : MindsAround visit) (hbalanced : Balanced visit)

include hminds hbalanced

theorem heeds_textStep (hc : Collecting c) (h : Heeds Q c) : Heeds Q (textStep visit c).2 := by
  have hc' := (does_prepareText.grows c).collecting hc
  have hroots : ∀ r ∈ (prepareText c).1.roots, r.tag? = none := fun r => tag?_of_mem_prepareText
  have hframe := (frame_nestedBlocks hminds hbalanced hroots hc').1
  have hnested := fixed_nestedBlocks hbalanced (prepareText c).1.roots
  have hkept := hnested.kept (prepareText c).2 ((hnested.grows _).collecting hc').goesOn
  have hlowered : Heeds Q (nestedBlocks visit (prepareText c).1.roots (prepareText c).2).2 :=
    (does_prepareText.heeding hQ rfl c h).of_eq hQ (by rw [hframe]) (by rw [hframe]) (congrArg Stacks.saved hkept)
  rw [textStep]
  exact (does_finishText _ _).heeding hQ rfl _ hlowered

omit hQ in
theorem unbranched_childrenStep (hc : Collecting c) (h : Heeds (fun n => n.branch? = none) c) :
    Heeds (fun n => n.branch? = none) (childrenStep visit c).2 := by
  cases hv : c.frame.node with
  | none => rwa [childrenStep_of_isTextLike visit (by simp [hv])]
  | some v =>
    have hop := (around_lowerChildren hminds hbalanced v.isFragment 0 v.children hc).2.1
    have hfixed := fixed_lowerChildren hbalanced v.isFragment 0 v.children
    have hkept := hfixed.kept c ((hfixed.grows c).collecting hc).goesOn
    obtain ⟨runs, heq, -⟩ := childrenStep_eq visit hv
    rw [heq]
    refine heeding_insertRuns runs _ ⟨?_, fun s hs => h.saved s ((congrArg Stacks.saved hkept).subst hs)⟩
    rw [NodePlan.branch?, hop]
    exact h.plan

omit hQ in
theorem unbranched_lowerBody (hc : Collecting c) (h : Heeds (fun n => n.branch? = none) c) :
    Heeds (fun n => n.branch? = none) (lowerBody visit c).2 := by
  have hQ := PlanRule.unbranched
  obtain ⟨c₁, c₂, c₃, c₄, hcourse⟩ := body_course hbalanced hc
  have h₁ := hcourse.comes ▸ heeding_enterBody hQ c h
  have h₂ := hcourse.texts ▸ heeds_textStep hQ hminds hbalanced hcourse.collecting.1 h₁
  have h₃ := hcourse.slots ▸ does_slotStep.heeding hQ rfl c₂ h₂
  have h₄ := hcourse.children ▸ unbranched_childrenStep hminds hbalanced hcourse.collecting.2.2.1 h₃
  rw [hcourse.result]
  exact heeding_runExits hQ (body_exits c c₂) c₄ h₄

end

theorem heeds_beforeChildren (hc : Collecting c) (h : Heeds Q c) (depth : Nat) :
    Heeds Q (beforeChildren (lowerNode .none depth) c) := by
  have hc₁ := (nears_approach c).grows.collecting hc
  have htexts := heeds_textStep hQ (around_lowerNode depth) (balanced_lowerNode depth) hc₁
    (does_approach.heeding hQ rfl c h)
  exact does_slotStep.heeding hQ rfl _ htexts

theorem heeds_of_arrives {o : LoweringOptions} (ho : o.collectErrors = true) {t : Template}
    {depth : Nat} (h : Arrives o t depth c) : Heeds Q c := by
  induction h with
  | start => exact ⟨hQ.empty, fun _ hs => nomatch hs⟩
  | @child depth _ _ _ _ harrives hv hchild ih =>
    have harrived := arrived_of_arrives ho harrives
    obtain ⟨-, hat⟩ := atChildren_of_node harrived hv
    have hbefore := heeds_beforeChildren hQ harrived.collecting ih depth
    have hkept := (hat.children hchild).2.kept
    exact ⟨hQ.empty, fun s hs => hbefore.saved s ((congrArg Stacks.saved hkept).subst hs)⟩
  | @root depth c r index harrives hr ih =>
    have harrived := arrived_of_arrives ho harrives
    have hc₁ := (nears_approach c).grows.collecting harrived.collecting
    have hc₂ := (does_prepareText.grows (approach c).2).collecting hc₁
    have hnested := fixed_nestedBlocks (balanced_lowerNode depth)
      ((prepareText (approach c).2).1.roots.take index)
    have hkept := hnested.kept _ ((hnested.grows _).collecting hc₂).goesOn
    have hprepared := does_prepareText.heeding hQ rfl _ (does_approach.heeding hQ rfl c ih)
    refine ⟨hQ.empty, fun s hs => ?_⟩
    rcases List.mem_cons.mp hs with rfl | hs
    · exact hQ.empty
    · exact hprepared.saved s ((congrArg Stacks.saved hkept).subst hs)

end

end Lower

end JsxTemplate
