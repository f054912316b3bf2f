import JsxTemplate.Proofs.Lowering.Stages

/-!
# Heads of loops that can be cut

The walk meets a fault only where it reads the head of a loop from whose names it cannot cut a piece
(`Tag.cutsLoop`). So there is none if all loops of the template are free of that (`fault_lowerNode`).
-/

namespace JsxTemplate

/-- Whether the head of a loop can be cut into its parts, or is none. -/
def Directive.cutsLoop (d : Directive) : Bool :=
  d.exp.all fun e => (LoopHead.ofExpression e).isOk

def Tag.cutsLoop (tag : Tag) : Bool := (tag.directive? "for").all Directive.cutsLoop

def Template.CutsLoops (t : Template) : Prop :=
  ∀ path tag children, t.nodeAt? path = some (.element tag children) → tag.cutsLoop = true

namespace Lower

def Clear {α : Type} (x : Lower α) : Prop := ∀ c, (x c).2.fault = c.fault

namespace Clear

variable {α β : Type}

theorem pure (a : α) : Clear (Pure.pure a) := fun _ => rfl

theorem bind {x : Lower α} {f : α → Lower β} (hx : Clear x) (hf : ∀ a, Clear (f a)) :
    Clear (x >>= f) := fun c => (hf _ _).trans (hx c)

end Clear

theorem Steady.clear {α : Type} {x : Lower α} (h : Steady x) : Clear x := fun c => (h.still c).fault

theorem clear_exitBlock : Clear exitBlock := by
  refine .bind (does_registerTemplate.steady rfl).clear fun _ => .bind (fun _ => rfl) fun _ => ?_
  intro c
  rw [run_bind, run_get]
  dsimp only
  cases c.saved <;> rfl

end Lower

theorem Deed.Changes.fault_eq {c c' : Context} {d : Deed} (h : Changes c d c') (hd : d ≠ .fault) :
    c'.fault = c.fault := by
  cases h with
  | work _ h | inset _ _ h => exact h.still.fault
  | leave => exact Lower.clear_exitBlock c
  | attach | give => rw [Lower.modifyParent_run]
  | fault => exact absurd rfl hd
  | _ => rfl

namespace Lower

theorem Does.clear {α : Type} {deeds : List Deed} {x : Lower α} (h : Does deeds x)
    (hd : deeds.contains .fault = false) : Clear x :=
  h.same fun d hmem _ _ hc => hc.fault_eq fun heq => by simp_all

theorem clear_loopHead {d : Directive} (h : d.cutsLoop = true) : Clear (loopHead d) := by
  intro c
  cases he : d.exp with
  | none =>
    simp only [loopHead, he]
    rfl
  | some e =>
    simp only [Directive.cutsLoop, he, Option.all_some] at h
    simp only [loopHead, he]
    cases hhead : LoopHead.ofExpression e with
    | error fault => simp [hhead, Except.isOk, Except.toBool] at h
    | ok head => cases head <;> rfl

/-! ## Steps -/

/-- Whether the head of a loop at the current node can be cut. -/
def CutsNode (c : Context) : Prop :=
  ∀ path tag children, c.frame.node = some (.node path (.element tag children)) → tag.cutsLoop = true

theorem fault_loopStep {c : Context} (h : CutsNode c) : (loopStep c).2.fault = c.fault := by
  rcases atElement c with ⟨path, tag, children, hv⟩ | hv
  · rcases loopStep_eq hv with ⟨hidle, -⟩ | ⟨d, head, c', hd, -, -, hhead, heq⟩
    · rw [hidle]
    · have hcuts : d.cutsLoop = true := by simpa [Tag.cutsLoop, hd] using h path tag children hv
      have hfault := clear_loopHead hcuts { c with seen := (path, "for") :: c.seen }
      rw [hhead] at hfault
      rw [heq]
      cases head with
      | none => exact hfault
      | some head => exact ((does_enterLoop _ _ _ _).clear rfl c').trans hfault
  · rw [loopStep_of_other hv]

theorem clear_enterTemplateSlot {tag : Tag} (h : tag.cutsLoop = true) (d : Directive) :
    Clear (enterTemplateSlot tag d) := by
  refine .bind (steady_modifyPlan _).clear fun _ => .bind ?_ fun head =>
    .bind (fun _ => rfl) fun scope => .bind (fun _ => rfl) fun _ => .pure _
  cases hd : tag.directive? "for" with
  | none => exact .pure _
  | some loop => exact clear_loopHead (by simpa [Tag.cutsLoop, hd] using h)

theorem fault_slotStep {c : Context} (h : CutsNode c) : (slotStep c).2.fault = c.fault := by
  rcases atElement c with ⟨path, tag, children, hv⟩ | hv
  · have henter : Clear (do
        if children.isEmpty then return []
        enterComponentSlots tag children (tag.directive? "slot") : Lower (List Exit)) := by
      split
      · exact .pure _
      · exact (does_enterComponentSlots _ _ _).clear rfl
    rw [slotStep, run_bind, node_of_some hv]
    dsimp only
    split
    · cases (tag.directive? "slots").bind Directive.exp with
      | some e => exact Clear.bind (steady_addSlots _).clear (fun _ => henter) c
      | none => exact henter c
    · cases tag.directive? "slot" with
      | none => rfl
      | some d =>
        refine Clear.bind (x := isInComponent) (fun _ => rfl) (fun inside => ?_) c
        split
        · exact clear_enterTemplateSlot (h path tag children hv) d
        · exact .bind (plain_report _ _).steady.clear fun _ => .pure _
  · rw [slotStep_of_other hv]

theorem Nears.cutsNode {c c' : Context} (h : Nears c c') (hnode : c.frame.node.isSome = true)
    (hc : CutsNode c) : CutsNode c' := by
  obtain ⟨v, hv⟩ := Option.isSome_iff_exists.mp hnode
  obtain ⟨v', hv', -, hkind⟩ := h.node v hv
  intro path tag children hw
  obtain rfl := Option.some.inj (hv'.symm.trans hw)
  rcases hkind with rfl | ⟨_, _, _, -, hwrapped⟩
  · exact hc path tag children hv
  · cases hwrapped

theorem fault_approach {c : Context} (hnode : c.frame.node.isSome = true) (h : CutsNode c) :
    (approach c).2.fault = c.fault := by
  let c₁ := (onceStep c).2
  let c₂ := (conditionStep c₁).2
  let c₃ := (loopStep c₂).2
  have honce : Nears c c₁ := nears_of_still (plain_onceStep.grows c) (plain_onceStep.tidy c).toStill
  have hnears : Nears c c₂ := honce.trans (nears_conditionStep c₁)
  calc (approach c).2.fault
      = c₃.fault := steady_referenceStep.clear c₃
    _ = c₂.fault := fault_loopStep (hnears.cutsNode hnode h)
    _ = c₁.fault := does_conditionStep.clear rfl c₁
    _ = c.fault := plain_onceStep.steady.clear c

/-! ## What is left to do -/

theorem clear_runExits {exits : List Exit} (h : ∀ exit ∈ exits, exit.isOwn = true) :
    Clear (runExits .none exits) :=
  related_runExits (R := fun c c' => c'.fault = c.fault) (fun _ => rfl) (fun h h' => h'.trans h)
    fun exit he => (does_runExit (h exit he)).clear (by cases exit <;> rfl)

end Lower

end JsxTemplate
