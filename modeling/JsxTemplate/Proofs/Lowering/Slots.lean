import JsxTemplate.Proofs.Lowering.Siblings

/-!
# The slots of a component

The children of a component that are templates for slots add what they render to the slots of the component,
and the others are put into one slot more. So if nothing is wrong, a component has the bodies of its
templates in their order, apart from those that a later template takes the place of, and then one more if
there are other children (`slots_hold_bodies`).
-/

namespace JsxTemplate

/-- Whether nothing was found to be wrong between two states. -/
structure Silent (c c' : Context) : Prop where
  errors : c'.errors = c.errors
  fault : c'.fault = none

theorem Silent.between {c a b : Context} (h : Silent c b) (ha : Grows c a) (hb : Grows a b) :
    Silent c a ∧ Silent a b := by
  have heq : a.errors = c.errors :=
    (ha.errors.eq_of_length_le (h.errors ▸ hb.errors.length_le)).symm
  exact ⟨⟨heq, hb.fault h.fault⟩, ⟨h.errors.trans heq.symm, h.fault⟩⟩

/-- The directive that makes a node the template for a slot. -/
def Visited.slotDirective? (v : Visited) : Option Directive := v.tag?.bind Tag.slotDirective?

/-- Whether a node is the same, except for branches of the condition that it stands for. -/
def NodePlan.SameButBranch (n n' : NodePlan) : Prop :=
  n' = n ∨ ∃ b b' into, n.operation = some (.branch b into) ∧ n' = n.withOperation (.branch b' into)

/-- Whether nothing is rendered for a node. -/
structure NodePlan.IsVoid (n : NodePlan) : Prop where
  operation : n.operation = none
  template : n.template = none
  children : n.children = []
  nonTemplate : n.nonTemplate = true
  insert : n.insert = false

/-- Whether nothing is rendered for a node, of which markup is collected. -/
structure Frame.IsVoid (f : Frame) : Prop where
  plan : f.plan.IsVoid
  template : f.template = ""

theorem NodePlan.SameButBranch.trans {n n' n'' : NodePlan} (h : n.SameButBranch n')
    (h' : n'.SameButBranch n'') : n.SameButBranch n'' := by
  rcases h with rfl | ⟨b, b', into, hop, rfl⟩
  · exact h'
  · rcases h' with rfl | ⟨c, c', into', hop', rfl⟩
    · exact Or.inr ⟨b, b', into, hop, rfl⟩
    · refine Or.inr ⟨b, c', into', ?_, rfl⟩
      obtain ⟨-, rfl⟩ := Operation.branch.inj (Option.some.inj hop')
      exact hop

theorem NodePlan.sameButBranch_trans {ns ms ls : List NodePlan} (h : List.Forall₂ SameButBranch ns ms)
    (h' : List.Forall₂ SameButBranch ms ls) : List.Forall₂ SameButBranch ns ls := by
  induction h generalizing ls with
  | nil => exact h'
  | cons hn _ ih =>
    cases h' with
    | cons hm hrest => exact .cons (hn.trans hm) (ih hrest)

theorem NodePlan.sameButBranch_mapLastBranch (f : Branch → Branch) (plans : List NodePlan) :
    List.Forall₂ SameButBranch plans (mapLastBranch f plans) := by
  have hrefl : ∀ plans : List NodePlan, List.Forall₂ SameButBranch plans plans := fun plans =>
    List.forall₂_same.mpr fun n _ => Or.inl rfl
  induction plans with
  | nil => exact .nil
  | cons n plans ih =>
    rw [mapLastBranch]
    split
    · exact .cons (Or.inl rfl) ih
    · next b into hop => exact .cons (Or.inr ⟨b, f b, into, hop, rfl⟩) (hrefl plans)
    · exact hrefl _

namespace Lower

variable {c : Context} {children : List Node} {path : Path} {ps : List Frame} {tag : Tag}
  {d : Directive} {p : Frame} {depth : Nat} {v : Visited}

/-! ## Coming to an element that holds a block -/

section

variable {c : Context} {path : Path} {tag : Tag} {children : List Node}
  (hv : c.frame.node = some (.node path (.element tag children)))

include hv

theorem conditionStep_of_stays (hc : Collecting c) (hplan : c.frame.plan = .empty)
    (ht : tag.type = .template → tag.isTemplateSlot = true)
    (hstays : (conditionStep c).2.frame.node = some (.node path (.element tag children))) :
    ∃ seen errors, conditionStep c = ([], { c with seen, errors }) := by
  cases hd : (Visited.node path (.element tag children)).condition? with
  | none => exact ⟨_, _, conditionStep_of_none hv hd⟩
  | some d =>
    by_cases hseen : (path, "if") ∈ c.seen
    · exact ⟨_, _, conditionStep_of_seen hv hseen⟩
    · by_cases hrejected : d.name ≠ "if" ∧ c.mayJoin = false
      · exact ⟨_, _, conditionStep_of_not hc hv hd hseen hrejected.1 hrejected.2 hplan⟩
      · -- Otherwise the element is wrapped.
        have hnot : (tag.type != .template) = true := by
          refine bne_iff_ne.mpr fun htype => ?_
          rw [Visited.condition?, Visited.tag?, Option.bind_some, if_pos (ht htype)] at hd
          cases hd
        have hwraps : ∀ c', (enterBranch path tag children c').2.frame.node =
            some (.wrapped path tag children) := by
          intro c'
          rw [enterBranch, if_pos hnot]
          exact (plain_reference.tidy (enterBlock tag.loc false
            (replaceNode (.wrapped path tag children) c').2).2).node
        have hjoins : ∀ condition c', Context.mayJoin c' = true →
            (enterNextBranch path tag children condition c').2.frame.node =
              some (.wrapped path tag children) := by
          intro condition c' hmay
          rw [enterNextBranch_eq, if_pos hmay]
          exact hwraps _
        rw [conditionStep_of_condition hc hv hd hseen] at hstays
        split at hstays
        · cases (hwraps _).symm.trans hstays
        · next hname =>
          have hmay : c.mayJoin = true := by
            by_contra hnot
            exact hrejected ⟨hname, Bool.eq_false_iff.mpr hnot⟩
          rw [hjoins _ _ (by exact hmay)] at hstays
          cases hstays

theorem loopStep_of_stays
    (hstays : (loopStep c).2.frame.node = some (.node path (.element tag children))) :
    ∃ seen errors aborted fault, loopStep c = ([], { c with seen, errors, aborted, fault }) := by
  rcases loopStep_eq hv with ⟨hstep, -⟩ | ⟨d, head, c', -, -, hnew, hhead, heq⟩
  · exact ⟨_, _, _, _, hstep⟩
  · cases head with
    | none =>
      obtain ⟨-, errors, aborted, fault, hrun⟩ := loopHead_cases d { c with seen := (path, "for") :: c.seen }
      rw [hhead] at hrun
      exact ⟨_, errors, aborted, fault, by rw [heq, ← hrun]; rfl⟩
    | some head =>
      have hmarks := (marks_only hv hnew).loopHead d
      rw [hhead] at hmarks
      rw [heq] at hstays
      cases (hmarks.enterLoop head).node.symm.trans hstays

theorem referenceStep_eq : ∃ stored hasReference, referenceStep c = (stored, { c with hasReference }) ∧
    ∀ exit ∈ stored, ∃ value, exit = .reference value := by
  rw [referenceStep, run_bind, node_of_some hv]
  dsimp only
  cases ((tag.find? "ref").bind Attribute.value).filter fun e => e.isStatic || !e.isEmpty with
  | none => exact ⟨[], _, rfl, by simp⟩
  | some value => exact ⟨[.reference value], _, rfl, by simp⟩

end

/-- The state in which the walk has come to an element that is not wrapped. -/
structure StaysAt (path : Path) (tag : Tag) (children : List Node) (c c' : Context) : Prop where
  node : c'.frame.node = some (.node path (.element tag children))
  frame : ∃ once, c'.frame = { c.frame with once }
  outer : c'.outer = c.outer
  saved : c'.saved = c.saved
  left : ∃ cursor stored, (approach c).1 = .element cursor :: stored ∧
    ∀ exit ∈ stored, ∃ value, exit = .reference value

theorem stays_approach (hc : Collecting c) (hplan : c.frame.plan = .empty)
    (hv : c.frame.node = some (.node path (.element tag children)))
    (ht : tag.type = .template → tag.isTemplateSlot = true)
    (hstays : (approach c).2.frame.node = some (.node path (.element tag children))) :
    StaysAt path tag children c (approach c).2 := by
  let c₁ := c.afterOnce
  have honce : (onceStep c).2 = c₁ := onceStep_eq c
  have hc₁ : Collecting c₁ := ⟨hc.collects, hc.goesOn⟩
  have hlast : (approach c).2.frame.node = (loopStep (conditionStep c₁).2).2.frame.node := by
    rw [← honce]
    exact (steady_referenceStep.still _).node
  have hnode₂ : (conditionStep c₁).2.frame.node = some (.node path (.element tag children)) := by
    obtain ⟨v, hv₂, -, rfl | ⟨_, _, _, -, rfl⟩⟩ := (nears_conditionStep c₁).node _ hv
    · exact hv₂
    · -- What is wrapped stays wrapped.
      rw [hlast, loopStep_of_other (by simp [hv₂]), hv₂] at hstays
      cases hstays
  obtain ⟨seen, errors, hcondition⟩ := conditionStep_of_stays (c := c₁) hv hc₁ hplan ht hnode₂
  rw [hcondition] at hlast
  obtain ⟨seen', errors', aborted, fault, hloop⟩ :=
    loopStep_of_stays (c := { c₁ with seen, errors }) hv (hlast.symm.trans hstays)
  obtain ⟨stored, hasReference, hreference, hstored⟩ :=
    referenceStep_eq (c := { c₁ with seen := seen', errors := errors', aborted, fault }) hv
  have hrun : ∃ cursor, approach c = (.element cursor :: stored.reverse,
      { c₁ with seen := seen', errors := errors', aborted, fault, hasReference }) := by
    refine ⟨⟨some c.block.effects.length, some c.block.operations.length⟩, ?_⟩
    simp only [approach, run_bind, run_pure, honce, hcondition, hloop, hreference, List.reverse_nil,
      List.append_nil]
    rfl
  obtain ⟨cursor, hrun⟩ := hrun
  rw [hrun]
  exact ⟨hv, ⟨_, rfl⟩, rfl, rfl, cursor, stored.reverse, by rw [hrun], fun exit he =>
    hstored exit (List.mem_reverse.mp he)⟩

theorem node_approach_of_slot (hv : c.frame.node = some (.node path (.element tag children)))
    (hslot : tag.isTemplateSlot = true) :
    (approach c).2.frame.node = some (.node path (.element tag children)) := by
  have hv₁ : c.afterOnce.frame.node = some (.node path (.element tag children)) := hv
  have hcondition : conditionStep c.afterOnce = ([], c.afterOnce) :=
    conditionStep_of_none hv₁ (by simp [Visited.condition?, Visited.tag?, hslot])
  have hloop : loopStep c.afterOnce = ([], c.afterOnce) := by
    rcases loopStep_cases hv₁ with ⟨hstep, -⟩ | ⟨hnot, -⟩
    · exact hstep
    · rw [hslot] at hnot
      cases hnot
  simp only [approach, run_bind, onceStep_eq]
  rw [show c.withOnce (c.frame.once || c.startsOnce) = c.afterOnce from rfl, hcondition, hloop]
  exact (steady_referenceStep.still c.afterOnce).node.trans hv

theorem textStep_of_holder (visit : Lower Unit)
    (hv : c.frame.node = some (.node path (.element tag children))) (ht : tag.type ≠ .element) :
    ∃ seen plan, (textStep visit c).2 = { c with seen, frame := { c.frame with plan } } ∧
      (plan = c.frame.plan ∨ plan = { c.frame.plan with nonTemplate := true }) := by
  have ht : (tag.type == .element) = false := beq_eq_false_iff_ne.mpr ht
  have hprepare : ∃ seen plan, prepareText c = (.done, { c with seen, frame := { c.frame with plan } }) ∧
      (plan = c.frame.plan ∨ plan = { c.frame.plan with nonTemplate := true }) := by
    rw [prepareText, run_bind, node_of_some hv]
    dsimp only
    rw [run_bind]
    split
    · exact ⟨_, _, rfl, Or.inr rfl⟩
    · simp only [prepareChildren, Visited.tag?, Option.any_some, ht, Bool.false_and, Bool.false_eq_true, if_false]
      split
      · obtain ⟨seen, heq, -⟩ := markAllSeen_eq
          (textsBeforeExpressions (Visited.node path (.element tag children)).children) c
        exact ⟨seen, _, congrArg (Prod.mk TextWork.done) heq, Or.inl rfl⟩
      · exact ⟨_, _, rfl, Or.inl rfl⟩
  obtain ⟨seen, plan, hprepare, hplan⟩ := hprepare
  exact ⟨seen, plan, by rw [textStep, run_bind, runText, run_bind, hprepare]; rfl, hplan⟩

/-! ## Entering and leaving slots -/

theorem loopHead_of_silent (h : Silent c (loopHead d c).2) : (loopHead d c).1.isSome = true := by
  cases he : d.exp with
  | none =>
    simp only [loopHead, he] at h
    simpa [report] using h.errors
  | some e =>
    rcases hhead : LoopHead.ofExpression e with fault | (_ | head)
    · simp only [loopHead, he, hhead] at h
      cases h.fault
    · simp only [loopHead, he, hhead] at h
      simpa [report] using h.errors
    · simp only [loopHead, he, hhead]
      rfl

section

variable {c : Context} {path : Path} {tag : Tag} {children : List Node}
  (hv : c.frame.node = some (.node path (.element tag children)))

include hv

theorem slotStep_of_template (hd : tag.slotDirective? = some d)
    (hparent : ((c.outer.head?.bind Frame.node).bind Visited.tag?).any Tag.isComponent = true) :
    ∃ head scope, (slotStep c).1 = [.templateSlot d (tag.directive? "if") tag.slotOtherwise?
        (tag.directive? "for") head scope] ∧
      (Silent c (slotStep c).2 → (tag.directive? "for").isSome = true → head.isSome = true) ∧
      ∃ s, (slotStep c).2.saved = s :: c.saved ∧ s.plan = { c.frame.plan with nonTemplate := true } ∧
        s.template = c.frame.template := by
  have hinside : isInComponent c = (true, c) := by rw [← hparent]; rfl
  rw [Tag.slotDirective?, Option.ite_none_right_eq_some] at hd
  obtain ⟨htype, hd⟩ := hd
  have hnot : tag.isComponent = false := by
    rw [Tag.isComponent, beq_iff_eq.mp htype]
    rfl
  rw [slotStep, run_bind, node_of_some hv]
  simp only [hnot, hd, htype, Bool.false_eq_true, if_false, if_true, run_bind, hinside, Bool.true_and,
    enterTemplateSlot]
  cases hfor : tag.directive? "for" with
  | none => exact ⟨none, _, rfl, by simp, _, rfl, rfl, rfl⟩
  | some loop =>
    obtain ⟨-, errors, aborted, fault, hrun⟩ := loopHead_cases loop
      (modifyPlan (fun p => { p with nonTemplate := true }) c).2
    refine ⟨_, _, rfl, fun hsilent _ => loopHead_of_silent (d := loop)
      (c := (modifyPlan (fun p => { p with nonTemplate := true }) c).2)
        ⟨hsilent.errors, hsilent.fault⟩, ?_⟩
    simp only [Option.elim_some, hrun]
    exact ⟨_, rfl, rfl, rfl⟩

theorem slotStep_of_component (ht : tag.isComponent = true) :
    ∃ objects : List SlotGroup, (objects.flatMap SlotGroup.bodies = [] ∧ ∀ g ∈ objects, g.isFixed = false) ∧
      (children = [] → slotStep c = ([], { c with frame := { c.frame with
        slots := c.frame.slots ++ objects } })) ∧
      (children ≠ [] → (∃ scope, (slotStep c).1 = [.componentSlots (tag.directive? "slot")
          ((tag.directive? "slot").bind Directive.exp)
          ((children.find? fun c => !isSlotChild c).map Node.loc) scope]) ∧
        (slotStep c).2.frame.slots = [] ∧
        ∃ s, (slotStep c).2.saved = s :: c.saved ∧ s.slots = c.frame.slots ++ objects) := by
  rw [slotStep, run_bind, node_of_some hv]
  simp only [ht, if_true]
  have henter : ∀ c', children ≠ [] →
      (∃ scope, (enterComponentSlots tag children (tag.directive? "slot") c').1 =
        [.componentSlots (tag.directive? "slot") ((tag.directive? "slot").bind Directive.exp)
          ((children.find? fun c => !isSlotChild c).map Node.loc) scope]) ∧
      (enterComponentSlots tag children (tag.directive? "slot") c').2.frame.slots = [] ∧
      ∃ s, (enterComponentSlots tag children (tag.directive? "slot") c').2.saved = s :: c'.saved ∧
        s.slots = c'.frame.slots := by
    intro c' _
    rw [enterComponentSlots]
    simp only [run_bind]
    split
    · exact ⟨⟨_, rfl⟩, rfl, _, rfl, rfl⟩
    · exact ⟨⟨_, rfl⟩, rfl, _, rfl, rfl⟩
  cases (tag.directive? "slots").bind Directive.exp with
  | none =>
    refine ⟨[], ⟨rfl, by simp⟩, ?_, ?_⟩
    · rintro rfl
      simp
    · intro hne
      have hempty : children.isEmpty = false := by simpa using hne
      simp only [hempty, Bool.false_eq_true, if_false, List.append_nil]
      exact henter c hne
  | some e =>
    refine ⟨[.object e], ⟨rfl, by simp [SlotGroup.isFixed]⟩, ?_, ?_⟩
    · rintro rfl
      rfl
    · intro hne
      have hempty : children.isEmpty = false := by simpa using hne
      simp only [hempty, Bool.false_eq_true, if_false, run_bind]
      exact henter _ hne

theorem exitElement_of_component (ht : tag.isComponent = true) (cursor : Cursor) :
    ∃ use : ComponentUse, (exitElement .none cursor c).2.frame.plan.operation =
      some (.component use none) ∧ use.slots = c.frame.slots := by
  have hnot : (tag.type == .template) = false := by
    rw [beq_iff_eq.mp ht]
    rfl
  rw [exitElement, run_bind, node_of_some hv]
  simp only [hnot, ht, Bool.false_eq_true, if_false, if_true, run_bind]
  refine ⟨_, rfl, ?_⟩
  refine Eq.trans (plain_reference.tidy _).slots (Eq.trans (((does_noteComponent tag).plain rfl).tidy _).slots ?_)
  exact (((does_propertiesOf tag children cursor).plain rfl).tidy _).slots

end

theorem isVoid_reference (h : c.frame.IsVoid) : (reference c).2.frame.IsVoid := by
  obtain ⟨_, _, _, heq⟩ := reference_state c
  rw [heq]
  exact ⟨{ h.plan with }, h.template⟩

theorem runExits_of_references {stored : List Exit} (h : ∀ exit ∈ stored, ∃ value, exit = .reference value)
    (c : Context) :
    Tidy c (runExits .none stored c).2 ∧
      (c.frame.IsVoid → (runExits .none stored c).2.frame.IsVoid) := by
  induction stored generalizing c with
  | nil => exact ⟨.refl c, id⟩
  | cons exit stored ih =>
    obtain ⟨value, rfl⟩ := h exit List.mem_cons_self
    have heffect : ∀ expressions op c, (addEffect expressions op c).2.frame = Context.frame c := by
      intro expressions op c
      simp only [addEffect, registerEffect, run_bind]
      split <;> rfl
    have hexit : (exitReference value c).2.frame = (reference c).2.frame := by
      rw [exitReference, run_bind]
      dsimp only
      split
      · exact heffect _ _ (addOperation (.declareReference (reference c).1) (reference c).2).2
      · exact heffect _ _ (reference c).2
    rw [runExits_cons]
    split
    · exact ⟨.refl c, id⟩
    · obtain ⟨htidy, hvoid⟩ := ih (fun e he => h e (List.mem_cons_of_mem _ he))
        (runExit .none (.reference value) c).2
      refine ⟨(((does_exitReference value).plain rfl).tidy c).trans htidy, fun hc => hvoid ?_⟩
      exact hexit ▸ isVoid_reference hc

theorem exitTemplateSlot_of_silent {s : SavedBlock} {saved : List SavedBlock}
    (hs : c.saved = s :: saved) (houter : c.outer = p :: ps)
    {condition otherwise loop : Option Directive} {head : Option LoopHead} {scope : Nat}
    (hsilent : Silent c (exitTemplateSlot d condition otherwise loop head scope c).2) :
    let c' := (exitTemplateSlot d condition otherwise loop head scope c).2
    ∃ slots, SlotGroup.addTemplate p.slots d ⟨(exitBlock c).1, d.exp⟩ condition otherwise loop head =
        .ok slots ∧
      c'.outer = { p with slots } :: ps ∧ c'.frame.node = c.frame.node ∧ c'.frame.plan = s.plan ∧
      c'.frame.template = s.template := by
  obtain ⟨template, pieces, -, hexit⟩ := exitBlock_of_saved hs
  have hparent : ∀ c : Context, parentFrame? c = (c.outer.head?, c) := fun _ => rfl
  have hleft : (popScope scope (exitBlock c).2).2.outer = p :: ps := (exitBlock_outer c).trans houter
  rw [exitTemplateSlot, run_bind, run_bind, setTemplateSlot, run_bind, hparent] at hsilent ⊢
  simp only [hleft, List.head?_cons] at hsilent ⊢
  cases hadd : SlotGroup.addTemplate p.slots d ⟨(exitBlock c).1, d.exp⟩ condition otherwise loop head with
  | error mistake =>
    simp only [hadd] at hsilent
    have herrors := hsilent.errors
    rw [hexit] at herrors
    simp [report, popScope, Context.leave] at herrors
  | ok slots =>
    refine ⟨slots, rfl, ?_⟩
    dsimp only
    rw [modifyParent_of_cons hleft, hexit]
    exact ⟨rfl, rfl, rfl, rfl⟩

theorem setComponentSlots_eq (d : Option Directive) (pattern : Option Expression)
    (firstOther : Option Location) (slots : List SlotGroup) (block : Block) :
    setComponentSlots d pattern firstOther slots block =
      if d.isSome && !slots.isEmpty then report .mixedSlotUsage (d.map Directive.loc)
      else match firstOther with
        | none => addSlots slots
        | some loc =>
          if SlotGroup.hasSlot slots "default" then do
            report .extraneousDefaultSlotChildren (some loc)
            addSlots slots
          else addSlots (SlotGroup.add slots (d.bind Directive.arg) ⟨block, pattern⟩) := by
  rcases d with _ | d
  · rfl
  · cases hempty : slots.isEmpty with
    | false => simp [setComponentSlots, hempty]
    | true =>
      simp only [setComponentSlots, hempty]
      rfl

theorem setComponentSlots_of_silent {d : Option Directive} {pattern : Option Expression}
    {firstOther : Option Location} {slots : List SlotGroup} {block : Block}
    (hsilent : Silent c (setComponentSlots d pattern firstOther slots block c).2) :
    (setComponentSlots d pattern firstOther slots block c).2.frame.node = c.frame.node ∧
      (setComponentSlots d pattern firstOther slots block c).2.frame.slots.flatMap SlotGroup.bodies =
        c.frame.slots.flatMap SlotGroup.bodies ++ (slots.flatMap SlotGroup.bodies ++
          (firstOther.map fun _ => (⟨block, pattern⟩ : SlotBody)).toList) := by
  have hadd : ∀ added more, added.flatMap SlotGroup.bodies = slots.flatMap SlotGroup.bodies ++ more →
      (addSlots added c).2.frame.node = c.frame.node ∧
        (addSlots added c).2.frame.slots.flatMap SlotGroup.bodies =
          c.frame.slots.flatMap SlotGroup.bodies ++ (slots.flatMap SlotGroup.bodies ++ more) := by
    intro added more h
    refine ⟨rfl, ?_⟩
    change (c.frame.slots ++ added).flatMap SlotGroup.bodies = _
    rw [List.flatMap_append, h]
  rw [setComponentSlots_eq] at hsilent ⊢
  split at hsilent
  · simpa [report] using hsilent.errors
  · next hmixed =>
    rw [if_neg hmixed]
    rcases firstOther with _ | loc
    · exact hadd slots [] (List.append_nil _).symm
    · dsimp only at hsilent ⊢
      split at hsilent
      · simpa [report, addSlots, modifyFrame] using hsilent.errors
      · next hdefault =>
        rw [if_neg hdefault]
        exact hadd _ _ (SlotGroup.bodies_add slots _ _).1

theorem exitComponentSlots_of_saved {s : SavedBlock} {saved : List SavedBlock} (hs : c.saved = s :: saved)
    (d : Option Directive) (pattern : Option Expression) (firstOther : Option Location) (scope : Nat) :
    ∃ c', exitComponentSlots d pattern firstOther scope c =
        setComponentSlots d pattern firstOther c.frame.slots (exitBlock c).1 c' ∧
      c'.frame.node = c.frame.node ∧ c'.frame.slots = s.slots ∧ c'.errors = c.errors := by
  have hs' : (takeSlots c).2.saved = s :: saved := hs
  obtain ⟨template, pieces, -, hexit⟩ := exitBlock_of_saved hs'
  refine ⟨(popScope scope (exitBlock (takeSlots c).2).2).2, ?_, ?_⟩
  · rw [← (exitBlock_takeSlots c).1]
    rfl
  · rw [hexit]
    exact ⟨rfl, rfl, rfl⟩

theorem exitComponentSlots_of_silent {s : SavedBlock} {saved : List SavedBlock}
    (hs : c.saved = s :: saved) {d : Option Directive} {pattern : Option Expression}
    {firstOther : Option Location} {scope : Nat}
    (hsilent : Silent c (exitComponentSlots d pattern firstOther scope c).2) :
    let c' := (exitComponentSlots d pattern firstOther scope c).2
    c'.frame.node = c.frame.node ∧ c'.frame.slots.flatMap SlotGroup.bodies =
      s.slots.flatMap SlotGroup.bodies ++ (c.frame.slots.flatMap SlotGroup.bodies ++
        (firstOther.map fun _ => (⟨(exitBlock c).1, pattern⟩ : SlotBody)).toList) := by
  obtain ⟨c', hrun, hnode, hslots, herrors⟩ := exitComponentSlots_of_saved hs d pattern firstOther scope
  rw [hrun] at hsilent ⊢
  obtain ⟨hnode', hbodies⟩ := setComponentSlots_of_silent ⟨hsilent.errors.trans herrors.symm, hsilent.fault⟩
  exact ⟨hnode'.trans hnode, hslots ▸ hbodies⟩

/-! ## Visiting a child of a component -/

/-- The block of what is inside a node that the walk has come to. -/
def innerBlock (depth : Nat) (c : Context) : Block :=
  (exitBlock (childrenStep (lowerNode .none depth) (beforeChildren (lowerNode .none depth) c)).2).1

/-- The state in which the walk has visited what is inside a node. -/
structure Inside (depth : Nat) (c c' : Context) : Prop where
  children : c' = (childrenStep (lowerNode .none depth) (beforeChildren (lowerNode .none depth) c)).2
  collecting : Collecting c'
  grows : Grows c (textStep (lowerNode .none depth) (approach c).2).2 ∧
    Grows (beforeChildren (lowerNode .none depth) c) c'
  node : c'.frame.node = (beforeChildren (lowerNode .none depth) c).frame.node
  outer : c'.outer = c.outer
  saved : c'.saved = (beforeChildren (lowerNode .none depth) c).saved
  exits : (lowerNode .none (depth + 1) c).2 = (runExits .none
    ((slotStep (textStep (lowerNode .none depth) (approach c).2).2).1.reverse ++ (approach c).1) c').2
  ends : Grows c' (lowerNode .none (depth + 1) c).2

theorem Inside.silent {c c' : Context} (h : Inside depth c c')
    (hsilent : Silent c (lowerNode .none (depth + 1) c).2) :
    Silent (textStep (lowerNode .none depth) (approach c).2).2 (beforeChildren (lowerNode .none depth) c) ∧
      Silent (beforeChildren (lowerNode .none depth) c) c' ∧
      Silent c' (lowerNode .none (depth + 1) c).2 := by
  have hslots := does_slotStep.grows (textStep (lowerNode .none depth) (approach c).2).2
  have hrest := (hsilent.between h.grows.1 ((hslots.trans h.grows.2).trans h.ends)).2
  obtain ⟨henter, hrest⟩ := hrest.between hslots (h.grows.2.trans h.ends)
  exact ⟨henter, hrest.between h.grows.2 h.ends⟩

theorem exists_inside (hc : Collecting c) (hnode : c.frame.node.isSome = true) (depth : Nat) :
    ∃ c', Inside depth c c' := by
  have hbalanced := balanced_lowerNode depth
  have hminds := around_lowerNode depth
  have hnears := nears_approach c
  have hc₁ := hnears.grows.collecting hc
  have hgrows₂ := (fixed_textStep hbalanced).grows (approach c).2
  have hc₂ := hgrows₂.collecting hc₁
  have hgrows₃ := does_slotStep.grows (textStep (lowerNode .none depth) (approach c).2).2
  have hc₃ := hgrows₃.collecting hc₂
  have hchildren := fixed_childrenStep hbalanced
  have hgrows₄ := hchildren.grows (beforeChildren (lowerNode .none depth) c)
  have hc₄ := hgrows₄.collecting hc₃
  have hrun : (lowerNode .none (depth + 1) c).2 = (runExits .none
      ((slotStep (textStep (lowerNode .none depth) (approach c).2).2).1.reverse ++ (approach c).1)
      (childrenStep (lowerNode .none depth) (beforeChildren (lowerNode .none depth) c)).2).2 := by
    rw [lowerNode_collecting hc hnode]
    rfl
  refine ⟨_, rfl, hc₄, ⟨hnears.grows.trans hgrows₂, hgrows₄⟩,
    hchildren.node _ hc₄.goesOn, ?_, congrArg Stacks.saved (hchildren.kept _ hc₄.goesOn), hrun, ?_⟩
  · refine (outer_childrenStep hminds hbalanced hc₃).trans ?_
    refine (does_slotStep.outer rfl _).trans ?_
    rw [outer_textStep hminds hbalanced hc₁, hnears.outer]
  · obtain ⟨cursor, others, hleft, hothers⟩ := approach_exits c
    rw [hrun]
    refine growing_runExits (fun exit he => ?_) _
    rw [hleft, List.mem_append, List.mem_reverse, List.mem_cons] at he
    rcases he with he | rfl | he
    · exact leaves_slotStep.own (by decide) _ _ he
    · rfl
    · exact (hothers exit he).1

/-- What the visit of a template for a slot does: its slot is added to those of the component, and it is not
rendered itself. -/
theorem visit_template (hc : Collecting c) (hplan : c.frame.plan = .empty)
    (hmarkup : c.frame.template = "") (hv : c.frame.node = some (.node path (.element tag children)))
    (hd : tag.slotDirective? = some d) (houter : c.outer = p :: ps)
    (hp : (p.node.bind Visited.tag?).any Tag.isComponent = true)
    (hsilent : Silent c (lowerNode .none (depth + 1) c).2) :
    ∃ head slots, ((tag.directive? "for").isSome = true → head.isSome = true) ∧
      SlotGroup.addTemplate p.slots d ⟨innerBlock depth c, d.exp⟩ (tag.directive? "if") tag.slotOtherwise?
        (tag.directive? "for") head = .ok slots ∧
      (lowerNode .none (depth + 1) c).2.outer = { p with slots } :: ps ∧
      (lowerNode .none (depth + 1) c).2.frame.IsVoid := by
  have hd' := hd
  rw [Tag.slotDirective?, Option.ite_none_right_eq_some] at hd'
  have htype : tag.type = .template := beq_iff_eq.mp hd'.1
  have hslot : tag.isTemplateSlot = true := by
    rw [Tag.isTemplateSlot, hd'.1, Bool.true_and]
    exact Tag.hasDirective_of_directive hd'.2 (by decide) List.mem_cons_self
  have hstays := stays_approach hc hplan hv (fun _ => hslot) (node_approach_of_slot hv hslot)
  obtain ⟨c', hinside⟩ := exists_inside hc (by rw [hv]; rfl) depth
  obtain ⟨once, hframe⟩ := hstays.frame
  obtain ⟨cursor, stored, hleft, hstored⟩ := hstays.left
  obtain ⟨seen, plan, htext, hplan'⟩ :=
    textStep_of_holder (lowerNode .none depth) hstays.node (by rw [htype]; decide)
  have hnode₂ : (textStep (lowerNode .none depth) (approach c).2).2.frame.node =
      some (.node path (.element tag children)) := by
    rw [htext]
    exact hstays.node
  have houter₂ : (textStep (lowerNode .none depth) (approach c).2).2.outer = p :: ps := by
    rw [htext]
    exact hstays.outer.trans houter
  obtain ⟨head, scope, hslots, hhead, s, hsaved, hsplan, hstemplate⟩ := slotStep_of_template hnode₂ hd
    (by rw [houter₂]; exact hp)
  have hgo : c'.aborted = false := hinside.collecting.goesOn
  -- The template is finished first; then nothing is done for it as an element.
  have hgrows := (does_runExit (show (Exit.templateSlot d (tag.directive? "if") tag.slotOtherwise?
    (tag.directive? "for") head scope).isOwn = true from rfl)).grows c'
  have hresult := hinside.exits
  rw [hslots, hleft, List.reverse_singleton, List.singleton_append, runExits_cons,
    if_neg (by simp [hgo]), runExits_cons, if_neg (by simp [(hgrows.collecting hinside.collecting).goesOn])]
    at hresult
  have hsaved' : c'.saved = s :: (textStep (lowerNode .none depth) (approach c).2).2.saved :=
    hinside.saved.trans hsaved
  have hnode' : c'.frame.node = some (.node path (.element tag children)) :=
    hinside.node.trans ((hushing_slotStep _).node.trans hnode₂)
  generalize hexit : (runExit .none (.templateSlot d (tag.directive? "if") tag.slotOtherwise?
    (tag.directive? "for") head scope) c').2 = c₅ at hgrows hresult
  have helement : (runExits .none stored (runExit .none (.element cursor) c₅).2).2 =
      (runExits .none stored c₅).2 := by
    have hnode₅ : c₅.frame.node = some (.node path (.element tag children)) := by
      rw [← hexit]
      exact (hushing_runExit rfl rfl c').node.trans hnode'
    have hnothing : exitElement .none cursor c₅ = ((), c₅) := by
      refine exitElement_of_other (fun path' tag' children' h => ?_) cursor
      obtain ⟨-, heq⟩ := Visited.node.inj (Option.some.inj (hnode₅.symm.trans h))
      obtain ⟨rfl, -⟩ := Node.element.inj heq
      exact htype
    exact congrArg (fun r => (runExits .none stored (Prod.snd r)).2) hnothing
  rw [helement] at hresult
  have hends : Grows c₅ (lowerNode .none (depth + 1) c).2 := by
    rw [hresult]
    refine growing_runExits (fun exit he => ?_) c₅
    obtain ⟨value, rfl⟩ := hstored exit he
    rfl
  obtain ⟨henter, -, hrest⟩ := hinside.silent hsilent
  have hslots' := (hrest.between hgrows hends).1
  subst hexit
  obtain ⟨slots, hadd, houter', -, hplan₅, htemplate₅⟩ :=
    exitTemplateSlot_of_silent hsaved' (hinside.outer.trans houter) hslots'
  obtain ⟨htidy, hvoid⟩ := runExits_of_references hstored (exitTemplateSlot d (tag.directive? "if")
    tag.slotOtherwise? (tag.directive? "for") head scope c').2
  refine ⟨head, slots, hhead henter, ?_, ?_, ?_⟩
  · rw [innerBlock, ← hinside.children]
    exact hadd
  · rw [hresult]
    exact htidy.outer.trans houter'
  · rw [hresult]
    refine hvoid ⟨?_, ?_⟩
    · have hempty : plan = .empty ∨ plan = { NodePlan.empty with nonTemplate := true } := by
        rw [hframe, hplan] at hplan'
        exact hplan'
      rw [hplan₅, hsplan, htext]
      rcases hempty with rfl | rfl <;> exact ⟨rfl, rfl, rfl, rfl, rfl⟩
    · rw [htemplate₅, hstemplate, htext]
      dsimp only
      rw [hframe]
      exact hmarkup

/-! ## The children of a component -/

theorem slotStep_exits_of_other (h : ∀ v, c.frame.node = some v → v.slotDirective? = none) :
    ∀ exit ∈ (slotStep c).1, isTemplateSlotExit exit = false := by
  by_cases hother : ∀ path tag children, c.frame.node ≠ some (.node path (.element tag children))
  · rw [slotStep_of_other hother]
    simp
  · simp only [not_forall, not_not] at hother
    obtain ⟨path, tag, children, hv⟩ := hother
    cases ht : tag.isComponent with
    | true =>
      obtain ⟨objects, -, hempty, hslots⟩ := slotStep_of_component hv ht
      by_cases hchildren : children = []
      · rw [hempty hchildren]
        simp
      · obtain ⟨⟨scope, hexits⟩, -⟩ := hslots hchildren
        rw [hexits]
        simp [isTemplateSlotExit]
    | false =>
      have hnone := h _ hv
      rw [Visited.slotDirective?, Visited.tag?, Option.bind_some, Tag.slotDirective?] at hnone
      rw [slotStep, run_bind, node_of_some hv]
      simp only [ht, Bool.false_eq_true, if_false]
      cases hd : tag.directive? "slot" with
      | none => simp
      | some d =>
        have htype : (tag.type == .template) = false := by
          by_contra htype
          rw [if_pos (by simpa using htype), hd] at hnone
          cases hnone
        simp only [htype, Bool.false_and, Bool.false_eq_true, if_false, run_bind]
        simp

/-- What the visit of another child does to the node around it: at most a branch is attached to a condition
below it. -/
theorem visit_other (depth : Nat) (hc : Collecting c) (hv : c.frame.node = some v)
    (hother : v.slotDirective? = none) (houter : c.outer = p :: ps) :
    ∃ p', (lowerNode .none (depth + 1) c).2.outer = p' :: ps ∧ p'.slots = p.slots ∧
      List.Forall₂ NodePlan.SameButBranch p.plan.children p'.plan.children := by
  have hbalanced := balanced_lowerNode depth
  have hminds := around_lowerNode depth
  have honce := (plain_onceStep.tidy c).toStill
  have hc₁ := (plain_onceStep.grows c).collecting hc
  have hc₂ := (does_conditionStep.grows (onceStep c).2).collecting hc₁
  have hnears := nears_conditionStep (onceStep c).2
  have hbody : (lowerBody (lowerNode .none depth) (conditionStep (onceStep c).2).2).2.outer = p :: ps := by
    obtain ⟨c₁, c₂, c₃, c₄, hcourse⟩ := body_course hbalanced hc₂
    rw [hcourse.outer_result hminds hbalanced ?_, hnears.outer, honce.outer, houter]
    refine slotStep_exits_of_other fun v' hv' => ?_
    have hnode₂ : c₂.frame.node = (approach c).2.frame.node := by
      have hgo := hcourse.collecting.2.1.goesOn
      rw [hcourse.texts] at hgo ⊢
      rw [(fixed_textStep hbalanced).node c₁ hgo, hcourse.comes]
      rfl
    obtain ⟨v₁, hv₁, -, rfl | ⟨_, _, _, -, rfl⟩⟩ := (nears_approach c).node v hv
    · rwa [← Option.some.inj (hnode₂.symm.trans hv' |>.symm.trans hv₁)] at hother
    · rw [Option.some.inj (hnode₂.symm.trans hv' |>.symm.trans hv₁)]
      rfl
  have hgo := ((grows_lowerBody hbalanced hc₂).collecting hc₂).goesOn
  have hresult := lowerNode_eq_body hc (by rw [hv]; rfl) depth
  dsimp only at hresult
  have hsame : List.Forall₂ NodePlan.SameButBranch p.plan.children p.plan.children :=
    List.forall₂_same.mpr fun n _ => Or.inl rfl
  rw [hresult]
  generalize (lowerBody (lowerNode .none depth) (conditionStep (onceStep c).2).2).2 = c' at hbody hgo ⊢
  rcases conditionStep_exits (onceStep c).2 with hexits | ⟨id, condition, hexits⟩ | ⟨condition, hexits⟩
  · rw [hexits]
    exact ⟨p, hbody, rfl, hsame⟩
  · rw [hexits, runExits_cons, if_neg (by simp [hgo])]
    exact ⟨p, (exitBlock_outer c').trans hbody, rfl, hsame⟩
  · rw [hexits, runExits_cons, if_neg (by simp [hgo])]
    have hrun := congrArg (fun r => (Prod.snd r).outer) (modifyParent_of_cons ((exitBlock_outer c').trans hbody)
      (Frame.attachBranch fun id => Otherwise.ofBranch id condition (exitBlock c').1
        (c'.frame.once || condition.any Expression.isConstant)))
    have hattach := NodePlan.sameButBranch_mapLastBranch (fun b => b.attach (Otherwise.ofBranch b.id condition
      (exitBlock c').1 (c'.frame.once || condition.any Expression.isConstant))) p.plan.children.reverse
    rw [← List.forall₂_reverse_iff, List.reverse_reverse] at hattach
    exact ⟨_, hrun, rfl, hattach⟩

/-- The plan of a child after its visit. -/
def visitedPlan (depth : Nat) (v : Visited) (c : Context) (j : Nat) (child : Visited) : NodePlan :=
  (addToBlock (lowerNode .none depth (comeToChild (lowerNode .none depth) v j child c)).2).2.frame.plan

/-- What a child renders in a slot, if it is a template for one. -/
def slotTemplate? (depth : Nat) (v : Visited) (c : Context) (child : Visited × Nat) :
    Option (Tag × SlotBody) :=
  child.1.tag?.bind fun tag => tag.slotDirective?.map fun d =>
    (tag, ⟨innerBlock (depth - 1) (comeToChild (lowerNode .none depth) v child.2 child.1 c), d.exp⟩)

/-- The templates for slots among the children of an element, with what they render. The walk comes to the
element in the state `c`. -/
def slotTemplates (depth : Nat) (path : Path) (tag : Tag) (children : List Node) (c : Context) :
    List (Tag × SlotBody) :=
  (Visited.node path (.element tag children)).children.zipIdx.filterMap (slotTemplate? depth
    (.node path (.element tag children)) (beforeChildren (lowerNode .none depth) c))

theorem exists_of_tag {tag : Tag} (h : v.tag? = some tag) :
    ∃ path children, v = .node path (.element tag children) := by
  match v, h with
  | .node path (.element _ children), rfl => exact ⟨path, children, rfl⟩

theorem isFragment_of_component (h : v.tag?.any Tag.isComponent = true) : v.isFragment = true := by
  match v, h with
  | .node path (.element tag children), h =>
    rw [Visited.isFragment, beq_iff_eq.mp h]
    rfl

theorem takeChild_of_fragment (h : c.outer = p :: ps) :
    (takeChild true c).2.frame.slots = p.slots ∧
      (takeChild true c).2.frame.plan.children = p.plan.children ++ [(addToBlock c).2.frame.plan] := by
  rw [takeChild_eq h]
  exact ⟨rfl, rfl⟩

theorem isVoid_addToBlock (h : c.frame.IsVoid) : (addToBlock c).2.frame.plan.IsVoid := by
  have hvoid := isVoid_reference h
  obtain ⟨roots, heq⟩ := addToBlock_eq c
  rw [heq]
  rcases registerTemplate_cases (reference c).2 with ⟨hrun, -⟩ | ⟨_, _, -, -, -, -, hne⟩
  · rw [hrun]
    exact hvoid.plan
  · exact absurd hvoid.template hne

section

variable {t : Template} {depth : Nat} {c : Context} {v child : Visited} {k : Nat}
  (ha : Arrived t (depth + 1) (c.enterChild child k)) (hv : c.frame.node = some v)
  (hcomponent : v.tag?.any Tag.isComponent = true)
  (hsilent : Silent (c.enterChild child k) (lowerNode .none (depth + 1) (c.enterChild child k)).2)

include ha hv hcomponent hsilent

theorem slots_afterChild {templates : List (Tag × SlotBody)} {plans : List NodePlan}
    (hslots : SlotGroup.Holds templates c.frame.slots)
    (hplans : List.Forall₂ NodePlan.SameButBranch plans c.frame.plan.children) :
    let c' := afterChild (lowerNode .none (depth + 1)) true child k c
    SlotGroup.Holds (templates ++ (child.tag?.bind fun tag => tag.slotDirective?.map fun d =>
        (tag, (⟨innerBlock depth (c.enterChild child k), d.exp⟩ : SlotBody))).toList) c'.frame.slots ∧
      List.Forall₂ NodePlan.SameButBranch (plans ++
        [(addToBlock (lowerNode .none (depth + 1) (c.enterChild child k)).2).2.frame.plan])
        c'.frame.plan.children ∧
      (child.slotDirective?.isSome = true →
        (addToBlock (lowerNode .none (depth + 1) (c.enterChild child k)).2).2.frame.plan.IsVoid) := by
  have hsingle : ∀ n : NodePlan, List.Forall₂ NodePlan.SameButBranch [n] [n] := fun n =>
    .cons (Or.inl rfl) .nil
  dsimp only
  cases hd : child.slotDirective? with
  | none =>
    obtain ⟨p', houter, hsame, hchildren⟩ := visit_other depth ha.collecting rfl hd rfl
    obtain ⟨hslots', hplans'⟩ := takeChild_of_fragment houter
    have hnone : (child.tag?.bind fun tag => tag.slotDirective?.map fun d =>
        (tag, (⟨innerBlock depth (c.enterChild child k), d.exp⟩ : SlotBody))) = none := by
      rw [Visited.slotDirective?] at hd
      cases htag : child.tag? with
      | none => rfl
      | some tag =>
        rw [htag, Option.bind_some] at hd
        rw [Option.bind_some, hd]
        rfl
    rw [hnone, Option.toList_none, List.append_nil, afterChild, hslots', hplans', hsame]
    exact ⟨hslots, List.rel_append (NodePlan.sameButBranch_trans hplans hchildren) (hsingle _), by simp⟩
  | some d =>
    obtain ⟨path, tag, children, rfl⟩ : ∃ path tag children, child = .node path (.element tag children) := by
      rcases child with _ | ⟨path, ⟨tag, children⟩ | _ | _ | _⟩ | _
      case node.element => exact ⟨path, tag, children, rfl⟩
      all_goals cases hd
    have hd' : tag.slotDirective? = some d := hd
    obtain ⟨head, slots, hhead, hadd, houter, hvoid⟩ := visit_template ha.collecting rfl rfl rfl hd' rfl
      (by rw [hv]; exact hcomponent) hsilent
    obtain ⟨hslots', hplans'⟩ := takeChild_of_fragment houter
    rw [afterChild, hslots', hplans', Visited.tag?, Option.bind_some, hd', Option.map_some,
      Option.toList_some]
    exact ⟨hslots.addTemplate hhead hadd, List.rel_append hplans (hsingle _), fun _ => isVoid_addToBlock hvoid⟩

end

theorem childrenStep_of_fragment (visit : Lower Unit) (hv : c.frame.node = some v)
    (hfragment : v.isFragment = true) :
    (childrenStep visit c).2 = (lowerChildren visit true 0 v.children c).2 := by
  obtain ⟨runs, heq, rfl | ⟨hnot, -⟩⟩ := childrenStep_eq visit hv
  · rw [heq, hfragment]
    rfl
  · rw [hfragment] at hnot
    cases hnot

section

variable {k : Nat}

variable {o : LoweringOptions} (ho : o.collectErrors = true) {t : Template} {depth : Nat} {c : Context}
  (h : Arrives o t (depth + 1) c) {v : Visited}
  (hv : (beforeChildren (lowerNode .none depth) c).frame.node = some v)
  (hcomponent : v.tag?.any Tag.isComponent = true)
  (hsilent : Silent (beforeChildren (lowerNode .none depth) c)
    (childrenStep (lowerNode .none depth) (beforeChildren (lowerNode .none depth) c)).2)

include ho h hv hcomponent hsilent

omit hcomponent in
theorem silent_child {child : Visited} (hchild : v.children[k]? = some child) :
    let arrival := comeToChild (lowerNode .none depth) v k child (beforeChildren (lowerNode .none depth) c)
    Arrived t depth arrival ∧ Silent arrival (lowerNode .none depth arrival).2 := by
  have harrived := arrived_of_arrives ho h
  obtain ⟨hvalid, hat⟩ := atChildren_of_node harrived hv
  have hbalanced := balanced_lowerNode depth
  have hcomes := (hat.children hchild).2.grows.trans (grows_enterChild child k _)
  have hvisit := hbalanced.grows (comeToChild (lowerNode .none depth) v k child
    (beforeChildren (lowerNode .none depth) c))
  have hends := grows_visit hbalanced hat.collecting hv hchild
  have hrest := (hsilent.between hcomes (hvisit.trans hends)).2
  exact ⟨hat.arrived_child harrived hvalid hchild, (hrest.between hvisit hends).1⟩

theorem slots_lowerChildren (hslots : (beforeChildren (lowerNode .none depth) c).frame.slots = [])
    (hk : k ≤ v.children.length) : let c' := beforeChildren (lowerNode .none depth) c
    let cₖ := (lowerChildren (lowerNode .none depth) true 0 (v.children.take k) c').2
    SlotGroup.Holds ((v.children.take k).zipIdx.filterMap (slotTemplate? depth v c')) cₖ.frame.slots ∧
      List.Forall₂ NodePlan.SameButBranch ((v.children.take k).mapIdx (visitedPlan depth v c'))
        cₖ.frame.plan.children := by
  have harrived := arrived_of_arrives ho h
  obtain ⟨hvalid, hat⟩ := atChildren_of_node harrived hv
  have hfragment := isFragment_of_component hcomponent
  dsimp only
  induction k with
  | zero =>
    have hheeds := heeds_of_arrives .childless ho h
    have hnone := (heeds_beforeChildren .childless harrived.collecting hheeds depth).plan
    simp only [List.take_zero, lowerChildren, run_pure, hnone, hslots]
    exact ⟨.nil, .nil⟩
  | succ k ih =>
    obtain ⟨hholds, hplans⟩ := ih (by omega)
    have hchild : v.children[k]? = some v.children[k] := List.getElem?_eq_getElem hk
    obtain ⟨d, rfl⟩ := hat.depth_pos (List.mem_of_getElem? hchild)
    have hresumed := (hat.children hchild).2
    obtain ⟨ha, hquiet⟩ := silent_child ho h hv hsilent hchild
    dsimp only [comeToChild] at ha hquiet
    rw [hfragment] at ha hquiet hresumed
    obtain ⟨hholds', hplans', -⟩ := slots_afterChild ha (hresumed.node.trans hv) hcomponent hquiet hholds hplans
    rw [lowerChildren_take_succ (balanced_lowerNode (d + 1)) _ hat.collecting hchild]
    have hlength : (v.children.take k).length = k := by
      rw [List.length_take]
      omega
    rw [List.take_add_one, hchild, Option.toList_some, List.zipIdx_append, List.filterMap_append,
      List.mapIdx_append, hlength]
    have htemplate : ([v.children[k]].zipIdx (0 + k)).filterMap (slotTemplate? (d + 1) v
        (beforeChildren (lowerNode .none (d + 1)) c)) = (slotTemplate? (d + 1) v
          (beforeChildren (lowerNode .none (d + 1)) c) (v.children[k], k)).toList := by
      rw [Nat.zero_add, List.zipIdx_singleton, List.filterMap_cons]
      cases slotTemplate? (d + 1) v (beforeChildren (lowerNode .none (d + 1)) c) (v.children[k], k) <;> rfl
    rw [htemplate, List.mapIdx_singleton, Nat.zero_add]
    simp only [slotTemplate?, visitedPlan, comeToChild, hfragment]
    exact ⟨hholds', hplans'⟩

theorem isVoid_visitedPlan (hslots : (beforeChildren (lowerNode .none depth) c).frame.slots = [])
    {child : Visited} (hchild : v.children[k]? = some child) (hd : child.slotDirective?.isSome = true) :
    (visitedPlan depth v (beforeChildren (lowerNode .none depth) c) k child).IsVoid := by
  obtain ⟨-, hat⟩ := atChildren_of_node (arrived_of_arrives ho h) hv
  obtain ⟨d, rfl⟩ := hat.depth_pos (List.mem_of_getElem? hchild)
  obtain ⟨ha, hquiet⟩ := silent_child ho h hv hsilent hchild
  have hfragment := isFragment_of_component hcomponent
  have hresumed := (hat.children hchild).2
  have hlt := (List.getElem?_eq_some_iff.mp hchild).1
  obtain ⟨hholds, hplans⟩ := slots_lowerChildren ho h hv hcomponent hsilent hslots (Nat.le_of_lt hlt)
  dsimp only [comeToChild] at ha hquiet
  rw [hfragment] at ha hquiet hresumed
  obtain ⟨-, -, hvoid⟩ := slots_afterChild ha (hresumed.node.trans hv) hcomponent hquiet hholds hplans
  rw [visitedPlan, comeToChild, hfragment]
  exact hvoid hd

end

/-! ## The slots of a component -/

/-- What the slots of a component hold. The walk comes to the component in the state `c`. -/
structure HoldsBodies (depth : Nat) (path : Path) (tag : Tag) (children : List Node) (c : Context)
    (use : ComponentUse) : Prop where
  /-- They hold the bodies of the templates among the children, in their order, apart from those that a later
  template takes the place of. Then there is one more, unless each child looks like a template for a slot. -/
  bodies : use.slots.flatMap SlotGroup.bodies =
    keptBodies (slotTemplates depth path tag children c) ++ if children.all isSlotChild then []
      else [⟨innerBlock depth c, (tag.directive? "slot").bind Directive.exp⟩]
  /-- No template takes the place of another one if none is to join a condition that the template before it
  has closed. -/
  kept : ((slotTemplates depth path tag children c).IsChain fun a b =>
      (a.1.closesSlot && b.1.joinsSlot) = false) →
    keptBodies (slotTemplates depth path tag children c) =
      (slotTemplates depth path tag children c).map Prod.snd
  /-- The block of the slot for other children holds the plans of all children. -/
  others : children.all isSlotChild = false →
    List.Forall₂ NodePlan.SameButBranch
      ((Visited.node path (.element tag children)).children.mapIdx (visitedPlan depth
        (.node path (.element tag children)) (beforeChildren (lowerNode .none depth) c)))
      (innerBlock depth c).plan.children
  /-- But nothing is rendered there in the place of a template. -/
  void : ∀ k child, (Visited.node path (.element tag children)).children[k]? = some child →
    child.slotDirective?.isSome = true →
    (visitedPlan depth (.node path (.element tag children)) (beforeChildren (lowerNode .none depth) c) k
      child).IsVoid

theorem operation_of_component (hv : c.frame.node = some (.node path (.element tag children)))
    (ht : tag.isComponent = true) (hgo : c.aborted = false) (cursor : Cursor) {stored : List Exit}
    (hstored : ∀ exit ∈ stored, ∃ value, exit = .reference value) :
    ∃ use : ComponentUse, (runExits .none (.element cursor :: stored) c).2.frame.plan.operation =
      some (.component use none) ∧ use.slots = c.frame.slots := by
  obtain ⟨use, hop, hslots⟩ := exitElement_of_component hv ht cursor
  rw [runExits_cons, if_neg (by simp [hgo])]
  exact ⟨use, (runExits_of_references hstored _).1.operation.trans hop, hslots⟩

theorem comes_to_component {t : Template} (h : Arrived t (depth + 1) c)
    (hv : (beforeChildren (lowerNode .none depth) c).frame.node = some (.node path (.element tag children)))
    (ht : tag.isComponent = true) :
    ∃ cursor stored, (approach c).1 = .element cursor :: stored ∧
      (∀ exit ∈ stored, ∃ value, exit = .reference value) ∧
      (textStep (lowerNode .none depth) (approach c).2).2.frame.node =
        some (.node path (.element tag children)) ∧
      (textStep (lowerNode .none depth) (approach c).2).2.frame.slots = [] := by
  have htype : tag.type = .component := beq_iff_eq.mp ht
  obtain ⟨-, hat⟩ := atChildren_of_node h hv
  obtain ⟨-, w, hw, rfl | ⟨_, _, _, -, heq⟩⟩ := hat.node
  · have hnode₂ : (textStep (lowerNode .none depth) (approach c).2).2.frame.node =
        some (.node path (.element tag children)) := (hushing_slotStep _).node.symm.trans hv
    have hc₁ := (nears_approach c).grows.collecting h.collecting
    have htexts := fixed_textStep (balanced_lowerNode depth)
    have hnode₁ := (htexts.node _ ((htexts.grows _).collecting hc₁).goesOn).symm.trans hnode₂
    have hstays := stays_approach h.collecting h.plan hw (by rw [htype]; exact fun hne => nomatch hne) hnode₁
    obtain ⟨cursor, stored, hexits, hstored⟩ := hstays.left
    obtain ⟨once, hframe⟩ := hstays.frame
    obtain ⟨seen, plan, htext, -⟩ :=
      textStep_of_holder (lowerNode .none depth) hnode₁ (by rw [htype]; decide)
    refine ⟨cursor, stored, hexits, hstored, hnode₂, ?_⟩
    rw [htext]
    dsimp only
    rw [hframe]
    exact h.slots
  · cases heq

/-- Whenever the walk has visited a component and nothing is wrong with it, its slots hold what its children
render. -/
theorem slots_hold_bodies {o : LoweringOptions} (ho : o.collectErrors = true) {t : Template} {depth : Nat}
    {c : Context} (h : Arrives o t (depth + 1) c) {path : Path} {tag : Tag} {children : List Node}
    (hv : (beforeChildren (lowerNode .none depth) c).frame.node = some (.node path (.element tag children)))
    (ht : tag.isComponent = true) (hsilent : Silent c (lowerNode .none (depth + 1) c).2) :
    ∃ use, (lowerNode .none (depth + 1) c).2.frame.plan.operation = some (.component use none) ∧
      HoldsBodies depth path tag children c use := by
  have harrived := arrived_of_arrives ho h
  obtain ⟨c', hinside⟩ := exists_inside harrived.collecting harrived.node depth
  obtain ⟨hentered, hchildren, hleft⟩ := hinside.silent hsilent
  obtain ⟨cursor, stored, hexits, hstored, hnode₂, hslots₂⟩ := comes_to_component harrived hv ht
  obtain ⟨objects, ⟨hobjects, -⟩, hempty, hslots⟩ := slotStep_of_component hnode₂ ht
  have hnode' : c'.frame.node = some (.node path (.element tag children)) := hinside.node.trans hv
  have hgo := hinside.collecting.goesOn
  have hresult := hinside.exits
  rw [hexits] at hresult
  by_cases hnone : children = []
  · subst hnone
    obtain ⟨use, hop, huse⟩ := operation_of_component hnode' ht hgo cursor hstored
    have hslots' : c'.frame.slots = objects := by
      rw [hinside.children, childrenStep_of_fragment _ hv (isFragment_of_component ht), beforeChildren,
        hempty rfl, hslots₂]
      rfl
    refine ⟨use, by rw [hresult, hempty rfl]; exact hop, ?_, keptBodies_of_isChain, by simp, ?_⟩
    rotate_left
    · intro k child hchild
      cases hchild
    rw [huse, hslots', hobjects]
    rfl
  · obtain ⟨⟨scope, hexit⟩, hslots₃, s, hsaved, hs⟩ := hslots hnone
    have hsaved' : c'.saved = s :: (textStep (lowerNode .none depth) (approach c).2).2.saved :=
      hinside.saved.trans hsaved
    rw [hexit, List.reverse_singleton, List.singleton_append, runExits_cons, if_neg (by simp [hgo])]
      at hresult
    have hown : ∀ exit ∈ Exit.element cursor :: stored, exit.isOwn = true := by
      rintro exit (_ | ⟨_, he⟩)
      · rfl
      · obtain ⟨value, rfl⟩ := hstored exit he
        rfl
    have hgrows := (does_runExit (show (Exit.componentSlots (tag.directive? "slot")
      ((tag.directive? "slot").bind Directive.exp)
      ((children.find? fun c => !isSlotChild c).map Node.loc) scope).isOwn = true from rfl)).grows c'
    have hquiet := (hleft.between hgrows (hresult ▸ growing_runExits hown _)).1
    obtain ⟨hnode₅, hbodies⟩ := exitComponentSlots_of_silent hsaved' hquiet
    obtain ⟨use, hop, huse⟩ := operation_of_component (hnode₅.trans hnode') ht
      (hgrows.collecting hinside.collecting).goesOn cursor hstored
    obtain ⟨hholds, hplans⟩ := slots_lowerChildren ho h hv ht (hinside.children ▸ hchildren) hslots₃
      (Nat.le_refl _)
    rw [List.take_length, ← childrenStep_of_fragment _ hv (isFragment_of_component ht), ← hinside.children]
      at hholds hplans
    refine ⟨use, by rw [hresult]; exact hop, ?_, keptBodies_of_isChain, fun _ => ?_, fun k child => ?_⟩
    · have hfurther : (((children.find? fun c => !isSlotChild c).map Node.loc).map fun _ =>
          (⟨(exitBlock c').1, (tag.directive? "slot").bind Directive.exp⟩ : SlotBody)).toList =
          if children.all isSlotChild then []
          else [⟨innerBlock depth c, (tag.directive? "slot").bind Directive.exp⟩] := by
        rw [innerBlock, ← hinside.children]
        cases hfind : children.find? fun c => !isSlotChild c with
        | none => simpa [List.find?_eq_none] using hfind
        | some other =>
          have hother := List.find?_some hfind
          have hmem := List.mem_of_find?_eq_some hfind
          rw [if_neg fun hall => by rw [List.all_eq_true.mp hall other hmem] at hother; cases hother]
          rfl
      rw [huse, hbodies, hs, hslots₂, List.nil_append, hobjects, List.nil_append, hholds.bodies, hfurther]
      rfl
    · obtain ⟨template, pieces, -, heq⟩ := exitBlock_of_saved hsaved'
      rw [innerBlock, ← hinside.children, heq]
      exact hplans
    · exact isVoid_visitedPlan ho h hv ht (hinside.children ▸ hchildren) hslots₃

/-- A component with a template for a slot and a text beside it has the bodies of both. -/
theorem slots_hold_bodies_of_two :
    let template : Node := .element ⟨"template", .template,
      [.attribute ⟨"v-slot", some "x", .stub, none, .stub⟩], false, .stub⟩ [.text "1" .stub]
    let tag : Tag := ⟨"Comp", .component, [], false, .stub⟩
    let children := [template, .text "2" .stub]
    let o : LoweringOptions := ⟨true, fun _ => false⟩
    let t : Template := ⟨"", [.element tag children], .stub⟩
    let c := comeToChild (lowerNode .none 11) (.root t) 0 (.node [0] (.element tag children))
      (beforeChildren (lowerNode .none 11) (Context.ofTemplate o t))
    Arrives o t 11 c ∧
      (beforeChildren (lowerNode .none 10) c).frame.node = some (.node [0] (.element tag children)) ∧
      Silent c (lowerNode .none 11 c).2 ∧
      ∃ use, (lowerNode .none 11 c).2.frame.plan.operation = some (.component use none) ∧
        HoldsBodies 10 [0] tag children c use := by
  intro template tag children o t c
  obtain ⟨harrives, hstays⟩ := arrives_top (o := o) (t := t) rfl 10 rfl (n := .element tag children) rfl
  have hnode := hstays (by decide +kernel)
  have hsilent : Silent c (lowerNode .none 11 c).2 := ⟨by decide +kernel, by decide +kernel⟩
  have hholds : ∀ c', Arrives o t 11 c' → (beforeChildren (lowerNode .none 10) c').frame.node =
      some (.node [0] (.element tag children)) → Silent c' (lowerNode .none 11 c').2 →
      ∃ use, (lowerNode .none 11 c').2.frame.plan.operation = some (.component use none) ∧
        HoldsBodies 10 [0] tag children c' use :=
    fun c' harrives hnode hsilent => slots_hold_bodies rfl harrives hnode rfl hsilent
  exact ⟨harrives, hnode, hsilent, hholds c harrives hnode hsilent⟩

/-- The second of two templates that are to be rendered otherwise takes the place of the first, and nothing
is reported. -/
theorem slot_body_lost :
    let place := fun offset => (⟨⟨offset, 1, offset + 1⟩, ⟨offset, 1, offset + 1⟩, ""⟩ : Location)
    let template := fun name value slot offset => Node.element ⟨"template", .template,
      [.attribute ⟨name, none, .stub, value, .stub⟩, .attribute ⟨"v-slot", some slot, .stub, none, .stub⟩],
      false, place offset⟩ [.text slot .stub]
    let t : Template := ⟨"", [.element ⟨"Comp", .component, [], false, .stub⟩
      [template "v-if" (some ⟨"a", false, .stub⟩) "x" 1, template "v-else" none "y" 2,
        template "v-else" none "z" 3]], .stub⟩
    let c := t.lower ⟨true, fun _ => false⟩ .none
    c.errors = [] ∧ c.fault = none ∧ c.frame.plan.children.map (fun n => n.operation.map fun
      | .component use _ => (use.slots.flatMap SlotGroup.bodies).map fun body => body.block.loc
      | _ => []) = [some [place 1, place 3]] := by
  decide +kernel

end Lower

end JsxTemplate
