import JsxTemplate.Proofs.Lowering.Stages

/-!
# What the steps report

Most actions report nothing (`Tacit`), and most others report at most one mistake. There are two
exceptions. The step for conditions may report that a condition is missing and that there is no branch
before (`errors_conditionStep`). And when an element is finished, its items report one after the other,
each of them up to two mistakes (`errors_exitElement`).
-/

namespace JsxTemplate

namespace Lower

/-! ## Tacit actions -/

theorem tacit_modifyFrame (f : Frame → Frame) : Tacit (modifyFrame f) := fun _ => rfl

theorem tacit_modifyPlan (f : NodePlan → NodePlan) : Tacit (modifyPlan f) := tacit_modifyFrame _

theorem tacit_popFrame : Tacit popFrame := by
  intro c
  rw [popFrame_run]

theorem tacit_exitBlock : Tacit exitBlock := does_exitBlock.tacit rfl

/-! ## What the steps report -/

theorem errors_exitElement {c : Context} {path : Path} {tag : Tag} {children : List Node}
    (hv : c.frame.node = some (.node path (.element tag children))) (ht : tag.type ≠ .template)
    (cursor : Cursor) :
    ∃ groups, List.Forall₂ (TagItem.CanReport tag children) tag.items groups ∧
      (exitElement .none cursor c).2.errors = c.errors ++ groups.flatten := by
  have ht : (tag.type == .template) = false := beq_eq_false_iff_ne.mpr ht
  have hitems : Reports (fun new => ∃ groups,
      List.Forall₂ (TagItem.CanReport tag children) tag.items groups ∧ new = groups.flatten) (do
        note (.gathered path)
        let r ← propertiesOf .none tag children cursor
        let singleRoot ← isSingleRoot
        if tag.isComponent then lowerComponent tag r.1 singleRoot
        else lowerElement tag r.1 singleRoot r.2) := by
    have hproperties := (tells_gatherItems tag children tag.items ⟨[], [], []⟩ cursor).reports.before
      fun r => Tacit.pure (PropertyDraft.finish r.1, r.2)
    refine Reports.after (fun _ => rfl) fun _ => hproperties.before fun r => ?_
    refine Tacit.bind (fun _ => rfl) fun singleRoot => ?_
    split
    · exact (does_lowerComponent _ _ _).tacit rfl
    · exact (does_lowerElement _ _ _ _).tacit rfl
  obtain ⟨_, ⟨groups, hgroups, rfl⟩, heq⟩ := hitems c
  refine ⟨groups, hgroups, ?_⟩
  rw [exitElement, run_bind, node_of_some hv]
  simp only [ht, Bool.false_eq_true, if_false]
  exact heq

theorem reports_loopStep : Reports AtMostOne loopStep := by
  have hnothing : Reports AtMostOne (pure [] : Lower (List Exit)) :=
    (Tacit.pure _).reports .nil
  refine Reports.after (fun _ => rfl) fun v => ?_
  split
  · split
    · exact hnothing
    · split
      · exact hnothing
      · refine Reports.after ((does_markSeen _ _).tacit rfl) fun news => ?_
        split
        · exact hnothing
        · refine (tells_loopHead _).reports.before fun head => ?_
          split
          · exact .pure _
          · exact (does_enterLoop _ _ _ _).tacit rfl
  · exact hnothing

theorem reports_enterNextBranch (path : Path) (tag : Tag) (children : List Node)
    (condition : Option Expression) :
    Reports (fun new => new = [] ∨ new = [⟨.elseNoAdjacentIf, some tag.loc⟩])
      (enterNextBranch path tag children condition) := by
  refine Reports.after (tacit_modifyPlan _) fun _ => Reports.after (does_followsCondition.tacit rfl) fun follows => ?_
  split
  · exact (Tells.report (Or.inr rfl)).reports.before fun _ => (tacit_modifyPlan _).bind fun _ => .pure _
  · exact Tacit.reports (((does_enterBranch _ _ _).tacit rfl).bind fun _ => .pure _) (Or.inl rfl)

theorem errors_conditionStep (c : Context) :
    (∃ new, AtMostOne new ∧ (conditionStep c).2.errors = c.errors ++ new) ∨
    ∃ path tag children d, c.frame.node = some (.node path (.element tag children)) ∧
      conditionDirective? tag = some d ∧ (d.name ≠ "if" ∧ d.name ≠ "else") ∧ d.exp = none ∧
      (conditionStep c).2.errors =
        c.errors ++ [⟨.ifNoExpression, some d.loc⟩, ⟨.elseNoAdjacentIf, some tag.loc⟩] := by
  have hsame (h : conditionStep c = ([], c)) :
      ∃ new, AtMostOne new ∧ (conditionStep c).2.errors = c.errors ++ new :=
    ⟨[], .nil, by rw [h, List.append_nil]⟩
  rcases atElement c with ⟨path, tag, children, hv⟩ | hv
  · rcases conditionStep_eq hv with ⟨hidle, -⟩ | ⟨d, condition, c', -, hd, -, hcondition, h⟩
    · exact Or.inl (hsame hidle)
    · obtain ⟨first, hfirst, heq⟩ := (tells_branchCondition d).reports { c with seen := (path, "if") :: c.seen }
      rw [hcondition] at heq
      have hone : AtMostOne first := by
        rcases hfirst with rfl | ⟨-, -, rfl⟩
        · exact .nil
        · exact Nat.le_refl 1
      rcases h with ⟨e, -, -, hrun⟩ | ⟨hname, hrun⟩
      · rw [hrun]
        exact Or.inl ⟨first, hone, ((does_enterFirstBranch _ _ _ _).tacit rfl c').trans heq⟩
      · rw [hrun]
        obtain ⟨second, hsecond, heq'⟩ := reports_enterNextBranch path tag children condition c'
        rcases hsecond with rfl | rfl
        · exact Or.inl ⟨first, hone, by rw [heq', List.append_nil]; exact heq⟩
        · rcases hfirst with rfl | ⟨helse, hexp, rfl⟩
          · refine Or.inl ⟨[⟨.elseNoAdjacentIf, some tag.loc⟩], Nat.le_refl 1, ?_⟩
            rw [heq', heq, List.append_nil]
          · refine Or.inr ⟨path, tag, children, d, hv, hd, ⟨hname, helse⟩, hexp, ?_⟩
            rw [heq', heq, List.append_assoc]
            rfl
  · exact Or.inl (hsame (conditionStep_of_other hv))

theorem reports_slotStep : Reports AtMostOne slotStep := by
  have hnothing : Reports AtMostOne (pure [] : Lower (List Exit)) := (Tacit.pure _).reports .nil
  refine Reports.after (fun _ => rfl) fun v => ?_
  split
  · next path tag children =>
    have henter : Tacit (do
        if children.isEmpty then return []
        enterComponentSlots tag children (tag.directive? "slot") : Lower (List Exit)) := by
      split
      · exact .pure _
      · exact (does_enterComponentSlots _ _ _).tacit rfl
    dsimp only
    split
    · refine Tacit.reports ?_ .nil
      cases (tag.directive? "slots").bind Directive.exp with
      | some e => exact (tacit_modifyFrame _).bind fun _ => henter
      | none => exact henter
    · split
      · exact hnothing
      · refine Reports.after (fun _ => rfl) fun inside => ?_
        split
        · exact (tells_enterTemplateSlot _ _).reports
        · exact (tells_report _ _).reports.before fun _ => .pure _
  · exact hnothing

theorem reports_runExit {exit : Exit} (hown : exit.isOwn = true) (hother : exit.isElement = false) :
    Reports AtMostOne (runExit .none exit) := by
  have hsilent := (does_runExit hown).tacit
  cases exit with
  | branch id condition | otherwise condition
  | loop id head keyProperty component scope | reference value => exact (hsilent rfl).reports .nil
  | element cursor => cases hother
  | componentSlots d pattern firstOther scope =>
    exact Reports.after (does_takeSlots.tacit rfl) fun _ => Reports.after tacit_exitBlock fun _ =>
      Reports.after (fun _ => rfl) fun _ => (tells_setComponentSlots _ _ _ _ _).reports
  | templateSlot d condition otherwise loop head scope =>
    exact Reports.after tacit_exitBlock fun _ => Reports.after (fun _ => rfl) fun _ =>
      (tells_setTemplateSlot _ _ _ _ _ _).reports
  | added run => cases hown

end Lower

end JsxTemplate
