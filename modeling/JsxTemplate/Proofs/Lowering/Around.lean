import JsxTemplate.Proofs.Lowering.Course

/-!
# The node around

A visit may change the node around the visited one in two ways: a template for a slot is added to its
slots, and a further branch is attached to a condition below it. Everything farther away stays as it is
(`around_lowerNode`).
-/

namespace JsxTemplate

/-- Whether the nodes around are as before, apart from the slots of the nearest one. -/
inductive SlotsChanged : List Frame → List Frame → Prop where
  | same (outer : List Frame) : SlotsChanged outer outer
  | slots (p : Frame) (ps : List Frame) (slots : List SlotGroup) :
      SlotsChanged (p :: ps) ({ p with slots } :: ps)

namespace SlotsChanged

variable {outer outer' outer'' : List Frame}

theorem trans (h : SlotsChanged outer outer') (h' : SlotsChanged outer' outer'') :
    SlotsChanged outer outer'' := by
  cases h with
  | same => exact h'
  | slots p ps =>
    cases h' with
    | same => exact .slots p ps _
    | slots => exact .slots p ps _

theorem of_eq (h : outer' = outer) : SlotsChanged outer outer' := h ▸ .same _

end SlotsChanged

/-- What a visit may change of the nodes around. -/
inductive AroundChanged : List Frame → List Frame → Prop where
  | slots {outer outer' : List Frame} (h : SlotsChanged outer outer') : AroundChanged outer outer'
  | attach {outer : List Frame} {p : Frame} {ps : List Frame} (h : SlotsChanged outer (p :: ps))
      (otherwise : Nat → Otherwise) : AroundChanged outer (p.attachBranch otherwise :: ps)

theorem SlotsChanged.of_cons {p : Frame} {ps outer' : List Frame} (h : SlotsChanged (p :: ps) outer') :
    ∃ p', outer' = p' :: ps ∧ (p'.node = p.node ∧ p'.rootTemplate = p.rootTemplate) ∧ p'.plan = p.plan := by
  cases h with
  | same => exact ⟨p, rfl, ⟨rfl, rfl⟩, rfl⟩
  | slots _ _ slots => exact ⟨_, rfl, ⟨rfl, rfl⟩, rfl⟩

theorem AroundChanged.of_cons {p : Frame} {ps outer' : List Frame} (h : AroundChanged (p :: ps) outer') :
    ∃ p', outer' = p' :: ps ∧ (p'.node = p.node ∧ p'.rootTemplate = p.rootTemplate) ∧
      p'.plan.operation = p.plan.operation := by
  cases h with
  | slots h =>
    obtain ⟨p', rfl, hnode, hplan⟩ := h.of_cons
    exact ⟨p', rfl, hnode, by rw [hplan]⟩
  | attach h otherwise =>
    obtain ⟨p', heq, hnode, hplan⟩ := h.of_cons
    obtain ⟨rfl, rfl⟩ := List.cons.inj heq
    exact ⟨_, rfl, hnode, by rw [← hplan]; rfl⟩

def Deed.isInner : Deed → Bool
  | .attach | .give => false
  | _ => true

namespace Deed.Changes

variable {c c' : Context} {d : Deed} (h : Changes c d c')

include h

theorem outer (hd : d.isInner = true) : c'.outer = c.outer := by
  cases h with
  | work _ h => cases h <;> rfl
  | inset _ _ h => cases h <;> rfl
  | leave => exact Lower.exitBlock_outer c
  | attach | give => cases hd
  | _ => rfl

theorem slotsChanged (hd : d ≠ .attach) : SlotsChanged c.outer c'.outer := by
  by_cases hinner : d.isInner = true
  · exact .of_eq (h.outer hinner)
  · cases h with
    | attach => exact absurd rfl hd
    | give slots =>
      rw [Lower.modifyParent_run]
      cases c.outer with
      | nil => exact .same _
      | cons p ps => exact .slots p ps slots
    | _ => exact absurd rfl hinner

end Deed.Changes

namespace Lower

variable {c : Context}

section

variable {α : Type} {deeds : List Deed} {x : Lower α} (h : Does deeds x)

include h

theorem Does.outer (hd : deeds.all Deed.isInner = true) (c : Context) : (x c).2.outer = c.outer :=
  h.same (fun d hmem _ _ hc => hc.outer (List.all_eq_true.mp hd d hmem)) c

theorem Does.slotsChanged (hd : deeds.contains .attach = false) (c : Context) :
    SlotsChanged c.outer (x c).2.outer := by
  refine h.related (R := fun c c' => SlotsChanged c.outer c'.outer) (fun _ => .same _) .trans
    (fun d hmem _ _ hc => hc.slotsChanged fun hattach => ?_) c
  rw [hattach, ← List.contains_iff_mem, hd] at hmem
  cases hmem

end

/-! ## What is left to do -/

def isBranch : Exit → Bool
  | .branch _ _ | .otherwise _ => true
  | _ => false

def isTemplateSlotExit : Exit → Bool
  | .templateSlot _ _ _ _ _ _ => true
  | _ => false

theorem outer_runExit {exit : Exit} (hown : exit.isOwn = true) (hbranch : isBranch exit = false)
    (hslot : isTemplateSlotExit exit = false) (c : Context) :
    (runExit .none exit c).2.outer = c.outer := by
  refine (does_runExit hown).outer ?_ c
  cases exit with
  | otherwise condition => cases hbranch
  | templateSlot d condition otherwise loop head scope => cases hslot
  | _ => rfl

theorem outer_runExits {exits : List Exit}
    (h : ∀ exit ∈ exits, exit.isOwn = true ∧ isBranch exit = false)
    (hslot : ∀ exit ∈ exits, isTemplateSlotExit exit = false) (c : Context) :
    (runExits .none exits c).2.outer = c.outer :=
  related_runExits (R := fun c c' => c'.outer = c.outer) (fun _ => rfl) (fun h h' => h'.trans h)
    (fun exit he => outer_runExit (h exit he).1 (h exit he).2 (hslot exit he)) c

theorem slotsChanged_runExit {exit : Exit} (hown : exit.isOwn = true) (hbranch : isBranch exit = false)
    (c : Context) : SlotsChanged c.outer (runExit .none exit c).2.outer := by
  refine (does_runExit hown).slotsChanged ?_ c
  cases exit with
  | otherwise condition => cases hbranch
  | _ => rfl

theorem slotsChanged_runExits {exits : List Exit}
    (h : ∀ exit ∈ exits, exit.isOwn = true ∧ isBranch exit = false) (c : Context) :
    SlotsChanged c.outer (runExits .none exits c).2.outer :=
  related_runExits (R := fun c c' => SlotsChanged c.outer c'.outer) (fun _ => .same _) .trans
    (fun exit he => slotsChanged_runExit (h exit he).1 (h exit he).2) c

/-! ## The parts of a visit -/

theorem tag?_of_mem_nestedRoots {vs : List Visited} {r : Visited} (hr : r ∈ nestedRoots vs) :
    r.tag? = none := by
  obtain ⟨path, e, roots, loc, n, i, -, -, rfl⟩ := mem_nestedRoots hr
  cases n <;> rfl

theorem tag?_of_mem_prepareText {r : Visited} (hr : r ∈ (prepareText c).1.roots) : r.tag? = none := by
  obtain ⟨v, -, hr | ⟨-, _, _, -, -, hr⟩⟩ := rootsAmong_prepareText c r hr
  · exact tag?_of_mem_nestedRoots hr
  · exact tag?_of_mem_nestedRoots hr

/-- Whether a visit changes only the node around the visited one, and nothing if that is no element. -/
def MindsAround (visit : Lower Unit) : Prop :=
  ∀ c v, Collecting c → c.frame.node = some v →
    AroundChanged c.outer (visit c).2.outer ∧ (v.tag? = none → (visit c).2.outer = c.outer)

section

variable {visit : Lower Unit} (hminds : MindsAround visit)

include hminds

theorem around_afterChild (isFragment : Bool) (child : Visited) (index : Nat) (hc : Collecting c) :
    let c' := afterChild visit isFragment child index c
    c'.outer = c.outer ∧ c'.frame.plan.operation = c.frame.plan.operation ∧
      c'.frame.rootTemplate = c.frame.rootTemplate := by
  have hvisit : AroundChanged (c.frame :: c.outer) _ :=
    (hminds (c.enterChild child index) child ((grows_enterChild child index c).collecting hc) rfl).1
  obtain ⟨p, hp, ⟨-, hroot⟩, hop⟩ := hvisit.of_cons
  dsimp only
  rw [afterChild, takeChild_eq hp]
  exact ⟨rfl, hop, hroot⟩

variable (hbalanced : Balanced visit)

include hbalanced

theorem frame_nestedBlocks {roots : List Visited} (hroots : ∀ r ∈ roots, r.tag? = none)
    (hc : Collecting c) :
    (nestedBlocks visit roots c).2.frame = c.frame ∧ (nestedBlocks visit roots c).2.outer = c.outer := by
  induction roots generalizing c with
  | nil => exact ⟨rfl, rfl⟩
  | cons r roots ih =>
    have hvisit : (visit (enterNested r c)).2.outer = c.frame :: c.outer :=
      (hminds _ r ((grows_enterNested r c).collecting hc) rfl).2 (hroots r List.mem_cons_self)
    have hexit := (exitBlock_outer (visit (enterNested r c)).2).trans hvisit
    have hafter : (afterNested visit r c).frame = c.frame ∧ (afterNested visit r c).outer = c.outer := by
      rw [afterNested, popFrame_of_cons hexit]
      exact ⟨rfl, rfl⟩
    have hrest := ih (fun s hs => hroots s (List.mem_cons_of_mem _ hs))
      ((resumed_afterNested hbalanced hc r).grows.collecting hc)
    rw [nestedBlocks_collecting hbalanced hc]
    exact ⟨hrest.1.trans hafter.1, hrest.2.trans hafter.2⟩

theorem outer_textStep (hc : Collecting c) : (textStep visit c).2.outer = c.outer := by
  have hc' := (does_prepareText.grows c).collecting hc
  have hroots : ∀ r ∈ (prepareText c).1.roots, r.tag? = none := fun r => tag?_of_mem_prepareText
  have hnested := (frame_nestedBlocks hminds hbalanced hroots hc').2
  rw [textStep]
  refine ((does_finishText _ _).outer rfl _).trans (hnested.trans ?_)
  exact does_prepareText.outer rfl c

theorem around_lowerChildren (isFragment : Bool) (index : Nat) (children : List Visited)
    (hc : Collecting c) :
    let c' := (lowerChildren visit isFragment index children c).2
    c'.outer = c.outer ∧ c'.frame.plan.operation = c.frame.plan.operation ∧
      c'.frame.rootTemplate = c.frame.rootTemplate := by
  induction children generalizing index c with
  | nil => exact ⟨rfl, rfl, rfl⟩
  | cons child children ih =>
    have hafter := around_afterChild hminds isFragment child index hc
    have hrest := ih (index + 1)
      ((resumed_afterChild hbalanced hc isFragment child index).grows.collecting hc)
    rw [lowerChildren_collecting hbalanced hc]
    exact ⟨hrest.1.trans hafter.1, hrest.2.1.trans hafter.2.1, hrest.2.2.trans hafter.2.2⟩

theorem outer_childrenStep (hc : Collecting c) : (childrenStep visit c).2.outer = c.outer := by
  cases hv : c.frame.node with
  | none => rw [childrenStep_of_isTextLike visit (by simp [hv])]
  | some v =>
    obtain ⟨runs, heq, -⟩ := childrenStep_eq visit hv
    rw [heq, ((steady_insertRuns runs).still _).outer]
    exact (around_lowerChildren hminds hbalanced v.isFragment 0 v.children hc).1

end

/-! ## A visit -/

/-- Whether what is left to do is nothing, or to finish a branch. -/
def IsBranchExit (exits : List Exit) : Prop :=
  exits = [] ∨ (∃ id condition, exits = [.branch id condition]) ∨ ∃ condition, exits = [.otherwise condition]

theorem conditionStep_exits : Gives IsBranchExit conditionStep := by
  intro c
  obtain ⟨hlength, hkind⟩ := leaves_conditionStep c
  generalize (conditionStep c).1 = exits at hlength hkind ⊢
  rcases exits with _ | ⟨exit, _ | ⟨exit', exits⟩⟩
  · exact Or.inl rfl
  · have hexit := hkind exit List.mem_cons_self
    cases exit with
    | branch id condition => exact Or.inr (Or.inl ⟨id, condition, rfl⟩)
    | otherwise condition => exact Or.inr (Or.inr ⟨condition, rfl⟩)
    | _ => cases hexit
  · simp at hlength

theorem Leaves.isBranch_eq {kind : Exit.Kind} {step : Lower (List Exit)} (h : Leaves kind step)
    (hkind : kind ≠ .branch) (c : Context) : ∀ exit ∈ (step c).1, isBranch exit = false := by
  intro exit he
  have hexit := (h c).2 exit he
  cases exit with
  | branch id condition | otherwise condition => exact absurd hexit.symm hkind
  | _ => rfl

theorem Leaves.isTemplateSlotExit_eq {kind : Exit.Kind} {step : Lower (List Exit)} (h : Leaves kind step)
    (hkind : kind ≠ .slots) (c : Context) : ∀ exit ∈ (step c).1, isTemplateSlotExit exit = false := by
  intro exit he
  have hexit := (h c).2 exit he
  cases exit with
  | templateSlot d condition otherwise loop head scope => exact absurd hexit.symm hkind
  | _ => rfl

/-- What is done at a node between its condition and its texts. The result is what is left to do. -/
def enterBody : Lower (List Exit) := do
  let loop ← loopStep
  let stored ← referenceStep
  let element ← elementStep
  return element.reverse ++ (stored.reverse ++ loop.reverse)

/-- What is done at a node apart from its condition. -/
def lowerBody (visit : Lower Unit) : Lower Unit := do
  let left ← enterBody
  let _ ← textStep visit
  let slots ← slotStep
  let _ ← childrenStep visit
  runExits .none (slots.reverse ++ left)

theorem lowerNode_eq_body (hc : Collecting c) (hnode : c.frame.node.isSome = true) (depth : Nat) :
    (lowerNode .none (depth + 1) c).2 =
      let c₁ := (onceStep c).2
      (runExits .none (conditionStep c₁).1
        (lowerBody (lowerNode .none depth) (conditionStep c₁).2).2).2 := by
  have hreverse : (conditionStep (onceStep c).2).1.reverse = (conditionStep (onceStep c).2).1 := by
    rcases conditionStep_exits (onceStep c).2 with h | ⟨_, _, h⟩ | ⟨_, h⟩ <;> simp [h]
  rw [lowerNode_collecting hc hnode]
  simp only [approach, enterBody, lowerBody, run_bind, run_pure, hreverse]
  rw [← runExits_append]
  simp only [List.append_assoc]

section

variable (c : Context)

theorem grows_enterBody : Grows c (enterBody c).2 :=
  ((does_loopStep.grows c).trans (does_referenceStep.grows _)).trans (does_elementStep.grows _)

theorem outer_enterBody : (enterBody c).2.outer = c.outer :=
  (does_referenceStep.outer rfl (loopStep c).2).trans (nears_loopStep c).outer

theorem enterBody_exits : ∀ exit ∈ (enterBody c).1,
    exit.isOwn = true ∧ isBranch exit = false ∧ isTemplateSlotExit exit = false := by
  intro exit he
  obtain ⟨cursor, hcursor⟩ : ∃ cursor, (elementStep (referenceStep (loopStep c).2).2).1 =
    [.element cursor] := ⟨_, rfl⟩
  simp only [enterBody, run_bind, run_pure, hcursor, List.reverse_singleton, List.singleton_append,
    List.mem_cons, List.mem_append, List.mem_reverse] at he
  rcases he with rfl | he | he
  · exact ⟨rfl, rfl, rfl⟩
  · exact ⟨leaves_referenceStep.own (by decide) _ _ he, leaves_referenceStep.isBranch_eq (by decide) _ _ he,
      leaves_referenceStep.isTemplateSlotExit_eq (by decide) _ _ he⟩
  · exact ⟨leaves_loopStep.own (by decide) _ _ he, leaves_loopStep.isBranch_eq (by decide) _ _ he,
      leaves_loopStep.isTemplateSlotExit_eq (by decide) _ _ he⟩

end

theorem unwinds_enterBody (hc : Collecting c) :
    Unwinds (enterBody c).1 (enterBody c).2.stacks c.stacks := by
  let c₁ := (loopStep c).2
  let c₂ := (referenceStep c₁).2
  have hc₁ : Collecting c₁ := (does_loopStep.grows c).collecting hc
  have hc₂ : Collecting c₂ := (does_referenceStep.grows c₁).collecting hc₁
  exact (opens_elementStep.unwinds c₂ hc₂.goesOn).append
    ((opens_referenceStep.unwinds c₁ hc₂.goesOn).append (opens_loopStep.unwinds c hc₁.goesOn))

/-- The states of the body of a visit: the walk has come to the node, texts are lowered, slots are
entered, and the children are visited. -/
structure BodyCourse (visit : Lower Unit) (c c₁ c₂ c₃ c₄ : Context) : Prop where
  comes : c₁ = (enterBody c).2
  texts : c₂ = (textStep visit c₁).2
  slots : c₃ = (slotStep c₂).2
  children : c₄ = (childrenStep visit c₃).2
  collecting : Collecting c₁ ∧ Collecting c₂ ∧ Collecting c₃ ∧ Collecting c₄
  grows : Grows c c₄
  unwinds : Unwinds ((slotStep c₂).1.reverse ++ (enterBody c).1) c₄.stacks c.stacks

theorem body_course {visit : Lower Unit} (hbalanced : Balanced visit) (hc : Collecting c) :
    ∃ c₁ c₂ c₃ c₄, BodyCourse visit c c₁ c₂ c₃ c₄ := by
  let c₁ := (enterBody c).2
  let c₂ := (textStep visit c₁).2
  let c₃ := (slotStep c₂).2
  let c₄ := (childrenStep visit c₃).2
  have htexts := fixed_textStep hbalanced
  have hchildren := fixed_childrenStep hbalanced
  have hgrows₁ := grows_enterBody c
  have hc₁ : Collecting c₁ := hgrows₁.collecting hc
  have hgrows₂ : Grows c₁ c₂ := htexts.grows c₁
  have hc₂ := hgrows₂.collecting hc₁
  have hgrows₃ : Grows c₂ c₃ := does_slotStep.grows c₂
  have hc₃ := hgrows₃.collecting hc₂
  have hgrows₄ : Grows c₃ c₄ := hchildren.grows c₃
  have hc₄ := hgrows₄.collecting hc₃
  have hstacks₂ : c₂.stacks = c₁.stacks := htexts.kept c₁ hc₂.goesOn
  have hstacks₄ : c₄.stacks = c₃.stacks := hchildren.kept c₃ hc₄.goesOn
  refine ⟨c₁, c₂, c₃, c₄, rfl, rfl, rfl, rfl, ⟨hc₁, hc₂, hc₃, hc₄⟩,
    ((hgrows₁.trans hgrows₂).trans hgrows₃).trans hgrows₄, ?_⟩
  have hslots := opens_slotStep.unwinds c₂ hc₃.goesOn
  rw [hstacks₄]
  exact hslots.append (hstacks₂ ▸ unwinds_enterBody hc)

theorem body_exits (c c₂ : Context) : ∀ exit ∈ (slotStep c₂).1.reverse ++ (enterBody c).1,
    exit.isOwn = true ∧ isBranch exit = false := by
  intro exit he
  rcases List.mem_append.mp he with he | he
  · rw [List.mem_reverse] at he
    exact ⟨leaves_slotStep.own (by decide) _ _ he, leaves_slotStep.isBranch_eq (by decide) _ _ he⟩
  · obtain ⟨hown, hbranch, -⟩ := enterBody_exits c exit he
    exact ⟨hown, hbranch⟩

namespace BodyCourse

variable {visit : Lower Unit} {c c₁ c₂ c₃ c₄ : Context} (h : BodyCourse visit c c₁ c₂ c₃ c₄)

include h

theorem result : (lowerBody visit c).2 =
    (runExits .none ((slotStep c₂).1.reverse ++ (enterBody c).1) c₄).2 := by
  rw [h.children, h.slots, h.texts, h.comes]
  rfl

theorem outer (hminds : MindsAround visit) (hbalanced : Balanced visit) : c₄.outer = c.outer := by
  rw [h.children, outer_childrenStep hminds hbalanced h.collecting.2.2.1, h.slots, does_slotStep.outer rfl,
    h.texts, outer_textStep hminds hbalanced h.collecting.1, h.comes, outer_enterBody]

theorem outer_result (hminds : MindsAround visit) (hbalanced : Balanced visit)
    (hslots : ∀ exit ∈ (slotStep c₂).1, isTemplateSlotExit exit = false) :
    (lowerBody visit c).2.outer = c.outer := by
  rw [h.result, ← h.outer hminds hbalanced]
  refine outer_runExits (body_exits c c₂) (fun exit he => ?_) c₄
  rcases List.mem_append.mp he with he | he
  · exact hslots exit (List.mem_reverse.mp he)
  · exact (enterBody_exits c exit he).2.2

end BodyCourse

section

variable {visit : Lower Unit} (hbalanced : Balanced visit) {c : Context} (hc : Collecting c)

include hbalanced hc

theorem grows_lowerBody : Grows c (lowerBody visit c).2 := by
  obtain ⟨c₁, c₂, c₃, c₄, h⟩ := body_course hbalanced hc
  rw [h.result]
  exact h.grows.trans (growing_runExits (fun exit he => (body_exits c c₂ exit he).1) _)

theorem stacks_lowerBody : (lowerBody visit c).2.stacks = c.stacks := by
  have hgrows := grows_lowerBody hbalanced hc
  obtain ⟨c₁, c₂, c₃, c₄, h⟩ := body_course hbalanced hc
  rw [h.result] at hgrows ⊢
  exact (stacks_runExits h.unwinds (hgrows.collecting hc).goesOn).1

theorem slotsChanged_lowerBody (hminds : MindsAround visit) :
    SlotsChanged c.outer (lowerBody visit c).2.outer := by
  obtain ⟨c₁, c₂, c₃, c₄, h⟩ := body_course hbalanced hc
  rw [h.result, ← h.outer hminds hbalanced]
  exact slotsChanged_runExits (body_exits c c₂) c₄

theorem outer_lowerBody_of_other (hminds : MindsAround visit)
    (hother : ∀ path tag children, c.frame.node ≠ some (.node path (.element tag children))) :
    (lowerBody visit c).2.outer = c.outer := by
  obtain ⟨c₁, c₂, c₃, c₄, h⟩ := body_course hbalanced hc
  have hnode₁ : c₁.frame.node = c.frame.node := by
    rw [h.comes]
    refine (steady_referenceStep.still (loopStep c).2).node.trans ?_
    rw [loopStep_of_other hother]
  have hnode₂ : c₂.frame.node = c₁.frame.node := by
    have hgo := h.collecting.2.1.goesOn
    rw [h.texts] at hgo ⊢
    exact (fixed_textStep hbalanced).node c₁ hgo
  have hslots : slotStep c₂ = ([], c₂) := slotStep_of_other (hnode₂.trans hnode₁ ▸ hother)
  exact h.outer_result hminds hbalanced (by simp [hslots])

end

theorem around_lowerNode (depth : Nat) : MindsAround (lowerNode .none depth) := by
  induction depth with
  | zero => exact fun c v _ _ => ⟨.slots (.same _), fun _ => rfl⟩
  | succ depth ih =>
    intro c v hc hv
    have hbalanced := balanced_lowerNode depth
    let c₁ := (onceStep c).2
    let c₂ := (conditionStep c₁).2
    let c₃ := (lowerBody (lowerNode .none depth) c₂).2
    have honce := (plain_onceStep.tidy c).toStill
    have hc₁ : Collecting c₁ := (plain_onceStep.grows c).collecting hc
    have hc₂ : Collecting c₂ := (does_conditionStep.grows c₁).collecting hc₁
    have houter : c₂.outer = c.outer := (nears_conditionStep c₁).outer.trans honce.outer
    have hbody : SlotsChanged c.outer c₃.outer :=
      houter ▸ slotsChanged_lowerBody hbalanced hc₂ ih
    have hgo : c₃.aborted = false := ((grows_lowerBody hbalanced hc₂).collecting hc₂).goesOn
    rw [lowerNode_eq_body hc (by rw [hv]; rfl)]
    change AroundChanged c.outer (runExits .none (conditionStep c₁).1 c₃).2.outer ∧
      (_ → (runExits .none (conditionStep c₁).1 c₃).2.outer = c.outer)
    refine ⟨?_, fun htag => ?_⟩
    · rcases conditionStep_exits c₁ with h | ⟨id, condition, h⟩ | ⟨condition, h⟩
      · rw [h]
        exact .slots hbody
      · rw [h, runExits_cons, if_neg (by simp [hgo])]
        exact .slots (hbody.trans (.of_eq (exitBlock_outer c₃)))
      · rw [h, runExits_cons, if_neg (by simp [hgo])]
        have hexit := exitBlock_outer c₃
        rcases hc₃ : c₃.outer with _ | ⟨p, ps⟩
        · have hrun : (runExit .none (.otherwise condition) c₃).2.outer = [] :=
            congrArg (fun r => (Prod.snd r).outer) (modifyParent_of_nil (hexit.trans hc₃) _)
              |>.trans (hexit.trans hc₃)
          exact .slots (hbody.trans (.of_eq (hrun.trans hc₃.symm)))
        · have hrun : (runExit .none (.otherwise condition) c₃).2.outer =
              p.attachBranch (fun id => Otherwise.ofBranch id condition (exitBlock c₃).1
                (c₃.frame.once || condition.any Expression.isConstant)) :: ps :=
            congrArg (fun r => (Prod.snd r).outer) (modifyParent_of_cons (hexit.trans hc₃) _)
          exact hrun ▸ .attach (hc₃ ▸ hbody) _
    · have hother : ∀ path tag children, c₁.frame.node ≠ some (.node path (.element tag children)) := by
        intro path tag children heq
        obtain rfl := Option.some.inj (hv.symm.trans (honce.node.symm.trans heq))
        cases htag
      have hstep : conditionStep c₁ = ([], c₁) := conditionStep_of_other hother
      have hother₂ : ∀ path tag children, c₂.frame.node ≠ some (.node path (.element tag children)) := by
        rwa [show c₂ = c₁ from (congrArg Prod.snd hstep :)]
      have hbody : c₃.outer = c₂.outer :=
        outer_lowerBody_of_other hbalanced hc₂ ih hother₂
      rw [hstep]
      exact hbody.trans houter

end Lower

end JsxTemplate
