import JsxTemplate.Proofs.Lowering.Stages
import JsxTemplate.Proofs.Lowering.Supply

/-!
# What steps make

No step makes a block: a block is made when it is left. All else that steps make, and all that is made
when a node is left, is allowed by every rule. So a rule holds for a visit if it allows the blocks that
are left (`PartRule.Closes`).
-/

namespace JsxTemplate

def Exit.isClosing : Exit → Bool
  | .branch _ _ | .otherwise _ | .loop _ _ _ _ _ | .componentSlots _ _ _ _
  | .templateSlot _ _ _ _ _ _ => true
  | .reference _ | .element _ | .added _ => false

/-- Whether a rule allows the block that is left. -/
structure PartRule.Closes (rule : PartRule) (c : Context) : Prop where
  quiet : c.frame.once = true → c.block.effects = []
  allowed : rule.allows c.frame.once (Lower.exitBlock c).2.templates.length (.block (Lower.exitBlock c).1)

namespace Lower

variable {c : Context} {outer : Stacks} {id : Nat} {rule : PartRule}

/-! ## Elements and components -/

theorem obeys_lowerComponent (tag : Tag) (properties : Properties) (singleRoot : Bool) :
    Obeys rule (lowerComponent tag properties singleRoot) := by
  refine .bind ((does_noteComponent tag).obeys rfl) fun _ =>
    .bind ((does_flags fun _ => rfl).obeys rfl) fun _ c => ?_
  let c₁ := (reference c).2
  refine (does_reference.obeys rfl c).trans ((supplying_takeSlots c₁).trans ?_)
  refine supplies_setOperation (.component ⟨(reference c).1, tag.name, properties.groups, (takeSlots c₁).1,
    singleRoot && (takeSlots c₁).2.loopDepth == 0, (takeSlots c₁).2.frame.once,
    dynamicComponent? tag⟩ none) (fun W => ?_) (fun ho => ?_) (reference_id c)
    (by simp [Operation.madeIds]) rfl
  · rw [Scale.operation, Operation.parts, Operation.census, Scale.of_cons, ComponentUse.parts,
      ComponentUse.census, Scale.of_slots]
  · simp [Operation.once?, ho]

theorem obeys_exitElement (cursor : Cursor) : Obeys rule (exitElement .none cursor) := by
  refine .bind (does_node.obeys rfl) fun v => ?_
  split
  · split
    · exact .pure _
    · refine .bind (.ofSame fun _ => ⟨fun _ => rfl, rfl, rfl, rfl, rfl, rfl⟩) fun _ =>
        .bind ((does_propertiesOf _ _ _).obeys rfl) fun r =>
          .bind (does_isSingleRoot.obeys rfl) fun singleRoot => ?_
      split
      · exact obeys_lowerComponent _ _ _
      · exact (does_lowerElement _ _ _ _).obeys rfl
  · exact .pure _

/-! ## What is left to do -/

theorem exitBlock_id {b : SavedBlock} {names : List String} (h : Encloses outer c.stacks b names) :
    (exitBlock c).2.frame.plan.id = b.plan.id := by
  obtain ⟨template, pieces, -, hexit⟩ := exitBlock_of_saved h.saved
  rw [hexit]
  rfl

theorem supplies_exitBranch (h : rule.Closes c) {condition : Expression}
    (hclose : (Exit.branch id condition).Closes c.stacks outer) :
    Supplies rule 1 c 0 (exitBranch id condition c).2 0 := by
  obtain ⟨b, hb, hid⟩ := hclose
  refine (supplies_exitBlock h.quiet h.allowed).andThen (supplies_setOperation
    (.branch ⟨id, condition, (exitBlock c).1, none, c.frame.once || condition.isConstant⟩ none)
    (fun W => ?_) (fun ho => ?_) ((exitBlock_id hb).trans hid) (by simp [Operation.madeIds, Branch.ids]) rfl)
  · rw [Scale.operation, Operation.parts, Operation.census]
    exact W.branch_eq _ _ _ none _
  · rw [exitBlock_once] at ho
    simp [Operation.once?, ho]

theorem supplies_exitOtherwise (h : rule.Closes c) (condition : Option Expression) :
    Supplies rule 1 c 0 (exitOtherwise condition c).2 0 := by
  refine (supplies_exitBlock h.quiet h.allowed).andThen
    (supplies_attachBranch condition (exitBlock c).1 fun ho => ?_)
  rw [exitBlock_once] at ho
  simp [ho]

theorem supplies_exitLoop (h : rule.Closes c) {head : LoopHead} {keyProperty : Option Expression}
    {component : Bool} {scope : Nat}
    (hclose : (Exit.loop id head keyProperty component scope).Closes c.stacks outer) :
    Supplies rule 1 c 0 (exitLoop id head keyProperty component scope c).2 0 := by
  obtain ⟨b, names, hb, -, hid⟩ := hclose
  let c₁ := (popScope scope (exitBlock c).2).2
  have hleave := (supplies_exitBlock h.quiet h.allowed).andThen (((does_popScope scope).obeys rfl).hold _ _)
  have hid' : c₁.frame.plan.id = some id := (exitBlock_id hb).trans hid
  refine hleave.andThen (supplies_setOperation
    (.loop ⟨id, head, keyProperty, (exitBlock c).1, c₁.frame.once || head.source.isConstant, component,
      (isOnlyChild c₁).1⟩ none) (fun W => ?_) (fun ho => ?_) hid' (by simp [Operation.madeIds]) rfl)
  · rw [Scale.operation, Operation.parts, Operation.census, Scale.of_cons, LoopPlan.parts, LoopPlan.census]
    rfl
  · have ho : c₁.frame.once = true := ho
    simp [Operation.once?, ho]

theorem supplying_setComponentSlots (d : Option Directive) (pattern : Option Expression)
    (firstOther : Option Location) (slots : List SlotGroup) (block : Block) :
    Supplying rule (setComponentSlots d pattern firstOther slots block)
      (fun W => W.slots slots + W.block block) fun _ => 0 := by
  have hdrop : Supplying rule (addSlots slots) (fun W => W.slots slots + W.block block) fun _ => 0 := fun c =>
    Supplies.trans (.ofMoves rfl rfl ⟨rfl, rfl⟩ rfl fun _ => Nat.add_le_add_left (Nat.le_add_right _ _) _)
      (supplying_addSlots slots c)
  have hreport : ∀ code loc, Supplying rule (report code loc) (fun W => W.slots slots + W.block block)
      fun _ => 0 := fun code loc c => ((((does_report code loc).obeys rfl).hold _) c).drop
  unfold setComponentSlots
  split
  · exact hreport _ _
  · split
    · exact hdrop
    · split
      · exact (((does_report _ _).obeys rfl).hold _).bind fun _ => hdrop
      · intro c
        refine Supplies.trans (.ofMoves rfl rfl ⟨rfl, rfl⟩ rfl fun W => Nat.le_of_eq ?_)
          (supplying_addSlots _ c)
        rw [weight_addSlot]

theorem exitBlock_takeSlots (c : Context) :
    (exitBlock (takeSlots c).2).1 = (exitBlock c).1 ∧
      (exitBlock (takeSlots c).2).2.templates = (exitBlock c).2.templates := by
  have hregister : registerTemplate (takeSlots c).2 =
      ((registerTemplate c).1, { (registerTemplate c).2 with
        frame := { (registerTemplate c).2.frame with slots := [] } }) := by
    rw [registerTemplate_run, registerTemplate_run c]
    show (if c.discarding || c.frame.template.isEmpty then _ else _ : Lower (Option Nat)) _ = _
    split
    · rfl
    · cases hfind : c.templates.idxOf? c.frame.template with
      | none | some k => simp [pushTemplate, takeSlots, modifyPlan, modifyFrame, hfind]
  rcases hsaved : (registerTemplate c).2.saved with _ | ⟨b, saved⟩
  · have hsaved' : (registerTemplate (takeSlots c).2).2.saved = [] := by rw [hregister]; exact hsaved
    rw [exitBlock_of_outermost hsaved, exitBlock_of_outermost hsaved', hregister]
    exact ⟨rfl, rfl⟩
  · have hsaved' : (registerTemplate (takeSlots c).2).2.saved = b :: saved := by
      rw [hregister]
      exact hsaved
    rw [exitBlock_of_inner hsaved, exitBlock_of_inner hsaved', hregister]
    exact ⟨rfl, rfl⟩

theorem supplies_exitComponentSlots (h : rule.Closes c) (d : Option Directive)
    (pattern : Option Expression) (firstOther : Option Location) (scope : Nat) :
    Supplies rule 1 c 0 (exitComponentSlots d pattern firstOther scope c).2 0 := by
  have h' : rule.Closes (takeSlots c).2 := by
    obtain ⟨hblock, htemplates⟩ := exitBlock_takeSlots c
    refine ⟨h.quiet, ?_⟩
    rw [hblock, htemplates]
    exact h.allowed
  have hexit := (supplies_exitBlock h'.quiet h'.allowed).hold (·.slots (takeSlots c).1)
  have hleave := (supplying_takeSlots c).trans hexit
  exact (hleave.andThen (((does_popScope scope).obeys rfl).hold _ _)).andThen
    (supplying_setComponentSlots d pattern firstOther _ _ _)

theorem supplying_setTemplateSlot (d : Directive) (condition otherwise loop : Option Directive)
    (head : Option LoopHead) (block : Block) :
    Supplying rule (setTemplateSlot d condition otherwise loop head block) (·.block block) fun _ => 0 := by
  intro c
  rcases setTemplateSlot_cases d condition otherwise loop head block c with
    hrun | ⟨mistake, hrun⟩ | ⟨parent, outer, slots, houter, hadd, hrun⟩
  · rw [hrun]
    exact (Supplies.refl c _).drop
  · rw [hrun]
    exact ((((does_report mistake.code mistake.loc).obeys rfl).hold _) c).drop
  · rw [hrun]
    refine .ofMoves rfl (by simp [houter, Frame.standing]) ⟨rfl, rfl⟩ rfl fun W => ?_
    have hslots : W.slots slots ≤ W.slots parent.slots + W.block block := weight_addTemplate W hadd
    simp only [Scale.context, Scale.frame, houter, List.map_cons, List.sum_cons, Pi.zero_apply]
    omega

theorem supplies_runExit {exit : Exit} (hclose : exit.Closes c.stacks outer)
    (h : exit.isClosing = true → rule.Closes c) :
    Supplies rule exit.isClosing.toNat c 0 (runExit .none exit c).2 0 := by
  cases exit with
  | branch id condition => exact supplies_exitBranch (h rfl) hclose
  | otherwise condition => exact supplies_exitOtherwise (h rfl) condition
  | loop id head keyProperty component scope => exact supplies_exitLoop (h rfl) hclose
  | reference value => exact (does_exitReference value).obeys rfl c
  | element cursor => exact obeys_exitElement cursor c
  | componentSlots d pattern firstOther scope => exact supplies_exitComponentSlots (h rfl) _ _ _ _
  | templateSlot d condition otherwise loop head scope =>
    have hleave := (supplies_exitBlock (h rfl).quiet (h rfl).allowed).andThen
      (((does_popScope scope).obeys rfl).hold _ _)
    exact hleave.andThen (supplying_setTemplateSlot d condition otherwise loop head _ _)
  | added run => exact hclose.elim

/-! ## Texts and children -/

/-- Whether the values are no nodes of their own. -/
def TextWork.IsInside (work : TextWork) : Prop := ∀ id values roots, work ≠ .expression id values roots

theorem prepareChildren_isInside (v : Visited) : Gives TextWork.IsInside (prepareChildren v) := by
  have hdone : Gives TextWork.IsInside (pure .done) := .pure fun _ _ _ => by simp
  unfold prepareChildren
  dsimp only
  split
  · split
    · refine .bind fun values => ?_
      split
      · exact .bind fun _ => .bind fun _ => .pure fun _ _ _ => by simp
      · split
        · exact .bind fun _ => hdone
        · exact .bind fun _ => .bind fun _ => .bind fun _ => .bind fun _ => hdone
    · exact .bind fun _ => hdone
  · exact hdone

theorem prepareExpression_id {values : List Expression} {roots : List Visited}
    (h : (prepareExpression c).1 = .expression id values roots) :
    (prepareExpression c).2.frame.plan.id = some id := by
  revert h
  rw [prepareExpression, run_bind]
  cases (parentNode c).1 with
  | none =>
    intro h
    cases h
  | some parent =>
    simp only [run_bind]
    split
    · intro h
      cases h
    · intro h
      cases h
      exact reference_id _

theorem prepareText_id {values : List Expression} {roots : List Visited}
    (h : (prepareText c).1 = .expression id values roots) :
    (prepareText c).2.frame.plan.id = some id := by
  cases hv : c.frame.node with
  | none =>
    rw [prepareText_of_none hv] at h
    cases h
  | some v =>
    rcases prepareText_cases hv with ⟨hdone, -⟩ | ⟨-, heq⟩ | ⟨-, heq, -⟩
    · rw [hdone] at h
      cases h
    · rw [heq] at h
      exact absurd h (prepareChildren_isInside _ _ _ _ _)
    · rw [heq] at h ⊢
      exact prepareExpression_id h

theorem supplies_finishText {work : TextWork} {blocks : List NestedBlock}
    (hid : ∀ id values roots, work = .expression id values roots → c.frame.plan.id = some id) :
    Supplies rule 0 c (·.nested blocks) (finishText work blocks c).2 0 := by
  cases work with
  | done => exact (Supplies.refl c _).drop
  | container element values roots =>
    let op : Operation := .setNodes element values blocks c.frame.once false
    have hrun : (finishText (.container element values roots) blocks c).2 = c.act op none := rfl
    rw [hrun]
    refine ⟨rfl, rfl, .same rfl rfl, fun _ => ⟨0, rfl⟩, fun W hW => Nat.le_of_eq ?_⟩
    have hzero : W.part (.maker op) = 0 := hW _ (rule.maker fun ho => by simp [op, Operation.once?, ho])
    rw [weight_act, Scale.operation, Operation.parts, Operation.census, Scale.of_cons, hzero, Scale.of_nested,
      Nat.zero_add]
    rfl
  | expression id values roots =>
    refine supplies_setOperation (.createNodes id values blocks c.frame.once none) (fun W => ?_)
      (fun ho => ?_) (hid id values roots rfl) (by simp [Operation.madeIds]) rfl
    · rw [Scale.operation, Operation.parts, Operation.census, Scale.of_cons, Scale.of_nested]
    · simp [Operation.once?, ho]

section

variable {visit : Lower Unit} {r : Visited} {c : Context} {once : Bool}
  (hvisit : Supplies rule 0 ((enterNested r c).withOnce once) 0 (visit (enterNested r c)).2 0)

include hvisit

theorem openEffects_nested (ho : (visit (enterNested r c)).2.frame.once = true) :
    ∃ entered, (visit (enterNested r c)).2.openEffects =
      List.replicate entered [] ++ [] :: c.openEffects :=
  hvisit.quiet (hvisit.once.symm.trans ho)

theorem effects_nested (ho : (visit (enterNested r c)).2.frame.once = true) :
    (visit (enterNested r c)).2.block.effects = [] := by
  obtain ⟨entered, hopen⟩ := openEffects_nested hvisit ho
  cases entered with
  | zero | succ entered => exact (List.cons.inj hopen).1

theorem supplies_nested (hmore : c.frame.once = true → once = true)
    (hallowed : rule.allows (visit (enterNested r c)).2.frame.once
      (exitBlock (visit (enterNested r c)).2).2.templates.length
      (.block (exitBlock (visit (enterNested r c)).2).1)) :
    Supplies rule 0 c 0 (popFrame (exitBlock (visit (enterNested r c)).2).2).2
        (·.block (exitBlock (visit (enterNested r c)).2).1) ∧
      (popFrame (exitBlock (visit (enterNested r c)).2).2).2.frame.plan.id = c.frame.plan.id := by
  let c₀ := (c.enterChild r 0).withOnce once
  let c₁ := (visit (enterNested r c)).2
  have hexit : Supplies rule 1 c₁ 0 (exitBlock c₁).2 (·.block (exitBlock c₁).1) :=
    supplies_exitBlock (effects_nested hvisit) hallowed
  have hleave : Supplies rule 1 c₀ 0 (exitBlock c₁).2 (·.block (exitBlock c₁).1) :=
    ((supplies_enterBlock r.loc false c₀).trans hvisit).trans hexit
  -- the block that is left is the one that was entered
  refine supplies_popFrame hmore { hleave with quiet := fun ho => ?_ }
  have ho : c₁.frame.once = true := hvisit.once.trans ho
  obtain ⟨entered, hopen⟩ := openEffects_nested hvisit ho
  obtain ⟨entered', hopen'⟩ := hexit.quiet ho
  refine ⟨entered' + entered, ?_⟩
  have hall : [] :: (exitBlock c₁).2.openEffects =
      List.replicate (entered' + entered + 1) [] ++ c.openEffects := by
    rw [hopen] at hopen'
    simp only [List.replicate_add, List.append_assoc, List.replicate_one, List.singleton_append]
    exact hopen'
  rw [List.replicate_succ, List.cons_append] at hall
  exact (List.cons.inj hall).2

end

theorem supplies_textStep {visit : Lower Unit}
    (hnested : Supplies rule 0 (prepareText c).2 0
        (nestedBlocks visit (prepareText c).1.roots (prepareText c).2).2
        (·.nested (nestedBlocks visit (prepareText c).1.roots (prepareText c).2).1) ∧
      (nestedBlocks visit (prepareText c).1.roots (prepareText c).2).2.frame.plan.id =
        (prepareText c).2.frame.plan.id) :
    Supplies rule 0 c 0 (textStep visit c).2 0 := by
  obtain ⟨hblocks, hid⟩ := hnested
  rw [textStep]
  exact (does_prepareText.obeys rfl c).trans (hblocks.trans
    (supplies_finishText fun _ _ _ hwork => hid.trans (prepareText_id hwork)))

theorem supplies_childrenStep {visit : Lower Unit}
    (hchildren : ∀ v, c.frame.node = some v →
      Supplies rule 0 c 0 (lowerChildren visit v.isFragment 0 v.children c).2 0) :
    Supplies rule 0 c 0 (childrenStep visit c).2 0 := by
  rcases hv : c.frame.node with _ | v
  · rw [childrenStep_of_isTextLike visit (by simp [hv])]
    exact .refl c _
  · obtain ⟨runs, heq, -⟩ := childrenStep_eq visit hv
    rw [heq]
    exact (hchildren v hv).trans (obeys_insertRuns runs _)

end Lower

end JsxTemplate
