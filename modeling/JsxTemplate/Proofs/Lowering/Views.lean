import JsxTemplate.Proofs.Lowering.Making
import JsxTemplate.Proofs.Plan.Outline

/-!
# What the walk adds to a block

Of each block that is open, the walk shows what has been listed in it so far, and the outlines of the nodes
on top of it (`View`). Most steps change nothing of this but enter blocks, in which nothing is listed yet
(`Idle`). The rest of what is done at a node adds to the current block alone (`Extends`).
-/

namespace JsxTemplate

variable {c c' : Context} {deeds : List Deed} {α : Type} {added : View} {d : Deed} {x : Lower α}

/-- What is listed in an open block, and the outlines of the nodes below its node. -/
structure View where
  effects : List Effect
  operations : List Operation
  outlines : List Outline

namespace View

def empty : View := ⟨[], [], []⟩

def append (v w : View) : View :=
  ⟨v.effects ++ w.effects, v.operations ++ w.operations, v.outlines ++ w.outlines⟩

@[simp] theorem append_empty (v : View) : v.append empty = v := by
  simp [append, empty]

@[simp] theorem empty_append (v : View) : empty.append v = v := by
  simp [append, empty]

theorem append_assoc (u v w : View) : (u.append v).append w = u.append (v.append w) := by
  simp [append]

end View

def OpenBlock.view (b : OpenBlock) (plan : NodePlan) : View :=
  ⟨b.effects, b.operations, plan.children.map NodePlan.outline⟩

def SavedBlock.view (b : SavedBlock) : View := b.block.view b.plan

def Frame.outlines (f : Frame) : List Outline := f.plan.children.map NodePlan.outline

def Context.view (c : Context) : View := c.block.view c.frame.plan

def Context.views (c : Context) : List View := c.view :: c.saved.map SavedBlock.view

/-- Whether the nodes below those around are the same, and nothing was put behind the end of a list. -/
structure Undisturbed (c c' : Context) : Prop where
  around : c'.outer.map Frame.outlines = c.outer.map Frame.outlines
  overrun : c'.overrun = c.overrun

/-- Whether blocks were entered, and nothing else has changed in those that are open. -/
structure Idle (entered : Nat) (c c' : Context) : Prop extends Undisturbed c c' where
  views : c'.views = List.replicate entered .empty ++ c.views

/-- Whether something was added to the current block, and nothing else has changed. -/
structure Extends (added : View) (c c' : Context) : Prop extends Undisturbed c c' where
  view : c'.view = c.view.append added
  saved : c'.saved.map SavedBlock.view = c.saved.map SavedBlock.view

/-- Whether the current block was left, and nothing else has changed. -/
structure Departs (c c' : Context) : Prop extends Undisturbed c c' where
  views : c'.views = c.views.tail

section

variable {c c' c'' : Context}

theorem Undisturbed.refl (c : Context) : Undisturbed c c := ⟨rfl, rfl⟩

theorem Undisturbed.trans (h : Undisturbed c c') (h' : Undisturbed c' c'') : Undisturbed c c'' :=
  ⟨h'.around.trans h.around, h'.overrun.trans h.overrun⟩

namespace Idle

theorem refl (c : Context) : Idle 0 c c := ⟨.refl c, rfl⟩

theorem trans {m n : Nat} (h : Idle m c c') (h' : Idle n c' c'') : Idle (n + m) c c'' := by
  refine ⟨h.toUndisturbed.trans h'.toUndisturbed, ?_⟩
  rw [h'.views, h.views, ← List.append_assoc, List.replicate_append_replicate]

theorem length_saved {n : Nat} (h : Idle n c c') : c'.saved.length = n + c.saved.length := by
  have hlengths := congrArg List.length h.views
  simp only [Context.views, List.length_append, List.length_replicate, List.length_cons,
    List.length_map] at hlengths
  omega

theorem extended (h : Idle 0 c c') : Extends .empty c c' := by
  obtain ⟨hview, hsaved⟩ := List.cons.inj h.views
  exact ⟨h.toUndisturbed, by rw [View.append_empty]; exact hview, hsaved⟩

end Idle

namespace Extends

theorem refl (c : Context) : Extends .empty c c := (Idle.refl c).extended

theorem trans {added added' : View} (h : Extends added c c') (h' : Extends added' c' c'') :
    Extends (added.append added') c c'' := by
  refine ⟨h.toUndisturbed.trans h'.toUndisturbed, ?_, h'.saved.trans h.saved⟩
  rw [h'.view, h.view, View.append_assoc]

theorem views (h : Extends added c c') :
    c'.views = c.view.append added :: c.saved.map SavedBlock.view := by
  rw [Context.views, h.view, h.saved]

end Extends

theorem Departs.idle (h : Departs c c') (h' : Idle 0 c' c'') : Departs c c'' :=
  ⟨h.toUndisturbed.trans h'.toUndisturbed, h'.views.trans h.views⟩

theorem Idle.departs (h : Idle 0 c c') (h' : Departs c' c'') : Departs c c'' :=
  ⟨h.toUndisturbed.trans h'.toUndisturbed, by rw [h'.views, h.views]; rfl⟩

end

/-! ## Actions that leave no trace in the blocks -/

namespace Lower

/-- Whether an action changes nothing in the open blocks, and leaves the node in its place. -/
def Idling {α : Type} (x : Lower α) : Prop :=
  ∀ c, Idle 0 c (x c).2 ∧ (x c).2.frame.node = c.frame.node

end Lower

def Deed.isIdle : Deed → Bool
  | .work | .inset | .nodes | .insertion | .children | .wrap | .enter | .leave => false
  | _ => true

theorem idle_modifyParent {f : Frame → Frame} (h : ∀ frame, (f frame).outlines = frame.outlines)
    (c : Context) : Idle 0 c (Lower.modifyParent f c).2 ∧
      (Lower.modifyParent f c).2.frame.node = c.frame.node := by
  rw [Lower.modifyParent_run]
  cases houter : c.outer <;> exact ⟨⟨⟨by simp [houter, h], rfl⟩, rfl⟩, rfl⟩

theorem outlines_attachBranch (otherwise : Nat → Otherwise) (frame : Frame) :
    (frame.attachBranch otherwise).outlines = frame.outlines := by
  simp only [Frame.outlines, Frame.attachBranch, List.map_reverse, outline_mapLastBranch,
    List.reverse_reverse]

theorem Deed.Changes.idle (h : Changes c d c') (hd : d.isIdle = true) :
    Idle 0 c c' ∧ c'.frame.node = c.frame.node := by
  cases h with
  | attach otherwise => exact idle_modifyParent (outlines_attachBranch otherwise) c
  | give slots =>
    refine idle_modifyParent ?_ c
    exact fun _ => rfl
  | _ => first | exact ⟨⟨⟨rfl, rfl⟩, rfl⟩, rfl⟩ | cases hd

namespace Lower

theorem Does.idling (h : Does deeds x) (hd : deeds.all Deed.isIdle = true) : Idling x :=
  h.related (R := fun c c' => Idle 0 c c' ∧ c'.frame.node = c.frame.node) (fun c => ⟨.refl c, rfl⟩)
    (fun h h' => ⟨h.1.trans h'.1, h'.2.trans h.2⟩)
    fun d hmem _ _ hc => hc.idle (List.all_eq_true.mp hd d hmem)

end Lower

theorem Deed.Changes.once_eq (h : Changes c d c') (hd : d ≠ .once) : c'.frame.once = c.frame.once := by
  cases h with
  | work _ h | inset _ _ h => cases h <;> rfl
  | leave => exact Lower.exitBlock_once c
  | attach | give => rw [Lower.modifyParent_run]
  | once => exact absurd rfl hd
  | _ => rfl

namespace Lower

theorem Does.once (h : Does deeds x) (hd : .once ∉ deeds) (c : Context) :
    (x c).2.frame.once = c.frame.once :=
  h.same (f := fun c => c.frame.once) (fun _ hmem _ _ hc => hc.once_eq fun heq => hd (heq ▸ hmem)) c

/-! ## Entering and leaving blocks -/

theorem idle_enterBlock (loc : Location) (isLoop : Bool) (c : Context) :
    Idle 1 c (enterBlock loc isLoop c).2 := ⟨⟨rfl, rfl⟩, rfl⟩

theorem departs_exitBlock {c : Context} (h : c.saved ≠ []) : Departs c (exitBlock c).2 := by
  obtain ⟨b, saved, hsaved⟩ := List.exists_cons_of_ne_nil h
  obtain ⟨template, pieces, -, hexit⟩ := exitBlock_of_saved hsaved
  rw [hexit]
  refine ⟨⟨rfl, rfl⟩, ?_⟩
  simp only [Context.views, hsaved, List.map_cons, List.tail_cons]
  rfl

theorem exitBlock_view {c : Context} (h : c.saved ≠ []) :
    (exitBlock c).1.loc = c.block.loc ∧ (exitBlock c).1.effects = c.block.effects ∧
      (exitBlock c).1.operations = c.block.operations ∧ (exitBlock c).1.plan.id = c.frame.plan.id ∧
      (exitBlock c).1.plan.children = c.frame.plan.children := by
  obtain ⟨b, saved, hsaved⟩ := List.exists_cons_of_ne_nil h
  obtain ⟨template, pieces, -, hexit⟩ := exitBlock_of_saved hsaved
  rw [hexit]
  exact ⟨rfl, rfl, rfl, rfl, rfl⟩

/-! ## Accounts -/

end Lower

/-- Where the node stands that a block was made for, and what the block gives back so far. -/
def OpenBlock.account (b : OpenBlock) : Location × List Nat := (b.loc, b.returns)

/-- The account of a block that was made for a node and that is empty. -/
def Visited.account (v : Visited) : Location × List Nat := (v.loc, [])

/-- The accounts of the blocks that are open, the innermost first. -/
def Context.accounts (c : Context) : List (Location × List Nat) :=
  c.block.account :: c.saved.map fun s => s.block.account

def Deed.isMute : Deed → Bool
  | .top | .enter | .leave => false
  | _ => true

theorem Deed.Changes.accounts_eq (h : Changes c d c') (hd : d.isMute = true) :
    c'.accounts = c.accounts := by
  cases h with
  | work _ h | inset _ _ h => cases h <;> rfl
  | attach | give =>
    rw [Lower.modifyParent_run]
    rfl
  | _ => first | rfl | cases hd

namespace Lower

/-- Whether an action changes nothing in the accounts. -/
def Mute {α : Type} (x : Lower α) : Prop := ∀ c, (x c).2.accounts = c.accounts

theorem Does.mute (h : Does deeds x) (hd : deeds.all Deed.isMute = true) : Mute x :=
  h.same fun d hmem _ _ hc => hc.accounts_eq (List.all_eq_true.mp hd d hmem)

/-! ## The walk comes to a node -/

/-- Whether blocks were entered, each of them for the node or for its wrapper, and nothing else has changed
in those that are open. -/
structure Enters (ws : List Visited) (c c' : Context) : Prop where
  idle : Idle ws.length c c'
  accounts : c'.accounts = ws.map Visited.account ++ c.accounts
  node : c'.frame.node = ws.head?.or c.frame.node
  valid : ∀ t, (∀ v, c.frame.node = some v → v.Valid t) → ∀ w ∈ ws, w.Valid t ∧ w.isTemplateLike = true

theorem Enters.nothing (h : Idle 0 c c' ∧ c'.frame.node = c.frame.node)
    (haccounts : c'.accounts = c.accounts) : Enters [] c c' :=
  ⟨h.1, haccounts, h.2, by simp⟩

theorem Enters.refl (c : Context) : Enters [] c c := .nothing ⟨.refl c, rfl⟩ rfl

theorem Enters.trans {ws ws' : List Visited} {c c' c'' : Context} (h : Enters ws c c')
    (h' : Enters ws' c' c'') : Enters (ws' ++ ws) c c'' where
  idle := by
    rw [List.length_append]
    exact h.idle.trans h'.idle
  accounts := by rw [h'.accounts, h.accounts, List.map_append, List.append_assoc]
  node := by rw [h'.node, h.node, List.head?_append, Option.or_assoc]
  valid := by
    intro t ht w hw
    have hv' : ∀ v, c'.frame.node = some v → v.Valid t := by
      intro v hv
      rw [h.node] at hv
      rcases Option.or_eq_some_iff.mp hv with hw | ⟨-, hv⟩
      · exact (h.valid t ht v (List.mem_of_head? hw)).1
      · exact ht v hv
    exact (List.mem_append.mp hw).elim (h'.valid t hv' w) (h.valid t ht w)

section

variable {α β : Type} {c : Context} {deeds : List Deed}

theorem Does.enters {x : Lower α} (hx : Does deeds x) (hd : deeds.all (fun d => d.isIdle && d.isMute) = true)
    (c : Context) : Enters [] c (x c).2 := by
  simp only [List.all_eq_true, Bool.and_eq_true] at hd
  exact .nothing (hx.idling (List.all_eq_true.mpr fun d hmem => (hd d hmem).1) c)
    (hx.mute (List.all_eq_true.mpr fun d hmem => (hd d hmem).2) c)

theorem Does.entersThen {x : Lower α} {f : α → Lower β} (hx : Does deeds x)
    (hd : deeds.all (fun d => d.isIdle && d.isMute) = true)
    (hf : ∀ a c', c'.frame.node = c.frame.node → ∃ ws, Enters ws c' (f a c').2) :
    ∃ ws, Enters ws c ((x >>= f) c).2 := by
  have hfirst := hx.enters hd c
  obtain ⟨ws, hws⟩ := hf (x c).1 (x c).2 hfirst.node
  exact ⟨_, hfirst.trans hws⟩

end

section

variable {c : Context} {path : Path} {tag : Tag} {children : List Node}

theorem enters_enterBranch (hv : c.frame.node = some (.node path (.element tag children))) :
    ∃ ws, Enters ws c (enterBranch path tag children c).2 := by
  have hrest : ∀ c, Idle 1 c (reference (enterBlock tag.loc false c).2).2 ∧
      (reference (enterBlock tag.loc false c).2).2.accounts = (tag.loc, []) :: c.accounts ∧
      (reference (enterBlock tag.loc false c).2).2.frame.node = c.frame.node := by
    intro c
    have hlast := does_reference.enters rfl (enterBlock tag.loc false c).2
    exact ⟨(idle_enterBlock tag.loc false c).trans hlast.idle, hlast.accounts, hlast.node⟩
  by_cases ht : tag.type = .template
  · have hrun : (enterBranch path tag children c).2 = (reference (enterBlock tag.loc false c).2).2 := by
      simp only [enterBranch, ht, bne_self_eq_false, Bool.false_eq_true, if_false]
      rfl
    rw [hrun]
    obtain ⟨hidle, haccounts, hnode⟩ := hrest c
    refine ⟨[.node path (.element tag children)], hidle, haccounts, hnode.trans hv, fun t hvalid w hw => ?_⟩
    obtain rfl := List.mem_singleton.mp hw
    exact ⟨hvalid _ hv, by simp [Visited.isTemplateLike, ht]⟩
  · have hrun : (enterBranch path tag children c).2 = (reference (enterBlock tag.loc false
        (replaceNode (.wrapped path tag children) c).2).2).2 := by
      simp only [enterBranch, bne_iff_ne, ne_eq, ht, not_false_eq_true, if_true]
      rfl
    rw [hrun]
    obtain ⟨hidle, haccounts, hnode⟩ := hrest (replaceNode (.wrapped path tag children) c).2
    refine ⟨[.wrapped path tag children], ⟨⟨hidle.around, hidle.overrun⟩, hidle.views⟩, haccounts, hnode,
      fun t hvalid w hw => ?_⟩
    obtain rfl := List.mem_singleton.mp hw
    have hvalid : (Visited.node path (.element tag children)).Valid t := hvalid _ hv
    exact ⟨hvalid, rfl⟩

theorem enters_enterFirstBranch (hv : c.frame.node = some (.node path (.element tag children)))
    (condition : Expression) : ∃ ws, Enters ws c (enterFirstBranch path tag children condition c).2 := by
  refine (does_flags fun _ => rfl).entersThen rfl fun _ c₁ h₁ => ?_
  refine does_reference.entersThen rfl fun _ c₂ h₂ => ?_
  refine (does_flags fun _ => rfl).entersThen rfl fun _ c₃ h₃ => ?_
  exact enters_enterBranch (h₃.trans (h₂.trans (h₁.trans hv)))

theorem enters_enterNextBranch (hv : c.frame.node = some (.node path (.element tag children)))
    (condition : Option Expression) :
    ∃ ws, Enters ws c (enterNextBranch path tag children condition c).2 := by
  refine (does_flags fun _ => rfl).entersThen rfl fun _ c₁ h₁ => ?_
  refine does_followsCondition.entersThen rfl fun follows c₂ h₂ => ?_
  cases follows with
  | false => exact ⟨_, .nothing ⟨⟨⟨rfl, rfl⟩, rfl⟩, rfl⟩ rfl⟩
  | true => exact enters_enterBranch (h₂.trans (h₁.trans hv))

theorem enters_conditionStep (c : Context) : ∃ ws, Enters ws c (conditionStep c).2 := by
  rcases atElement c with ⟨path, tag, children, hv⟩ | hv
  · rw [conditionStep, run_bind, node_of_some hv]
    dsimp only
    split
    · exact ⟨_, .refl c⟩
    · cases conditionDirective? tag with
      | none => exact ⟨_, .refl c⟩
      | some d =>
        refine (does_markSeen path "if").entersThen rfl fun news c₁ h₁ => ?_
        cases news with
        | false => exact ⟨_, .refl c₁⟩
        | true =>
          refine (does_branchCondition d).entersThen rfl fun condition c₂ h₂ => ?_
          have hv₂ := h₂.trans (h₁.trans hv)
          cases condition with
          | none => exact enters_enterNextBranch hv₂ none
          | some condition =>
            cases d.name == "if" with
            | true => exact enters_enterFirstBranch hv₂ condition
            | false => exact enters_enterNextBranch hv₂ (some condition)
  · rw [conditionStep_of_other hv]
    exact ⟨_, .refl c⟩

theorem enters_enterLoop (hv : c.frame.node = some (.node path (.element tag children)))
    (head : LoopHead) : ∃ ws, Enters ws c (enterLoop path tag children head c).2 := by
  have hready : Does [.flags, .number] (do
      modifyPlan fun p => { p with nonTemplate := true, insert := true }
      reference) := (does_flags fun _ => rfl).bind rfl fun _ => does_reference.mono rfl
  have hinside : Does [.number, .scope] (do
      let _ ← reference
      pushScope head.names) := does_reference.bind rfl fun _ => (does_pushScope _).mono rfl
  let c₁ := (replaceNode (.wrapped path tag children) c).2
  have hplace : Idle 0 c c₁ := ⟨⟨rfl, rfl⟩, rfl⟩
  have h₂ := hready.enters rfl c₁
  generalize hc₂ : (do
      modifyPlan fun p => { p with nonTemplate := true, insert := true }
      reference : Lower Nat) c₁ = r at h₂
  have h₄ := hinside.enters rfl (enterBlock tag.loc true r.2).2
  have hrun : (enterLoop path tag children head c).2 = ((do
      let _ ← reference
      pushScope head.names) (enterBlock tag.loc true r.2).2).2 := by
    rw [← hc₂]
    rfl
  rw [hrun]
  refine ⟨[.wrapped path tag children], ((hplace.trans h₂.idle).trans (idle_enterBlock _ _ _)).trans h₄.idle,
    ?_, h₄.node.trans h₂.node, fun t hvalid w hw => ?_⟩
  · rw [h₄.accounts]
    exact congrArg ((tag.loc, []) :: ·) h₂.accounts
  · obtain rfl := List.mem_singleton.mp hw
    have hvalid : (Visited.node path (.element tag children)).Valid t := hvalid _ hv
    exact ⟨hvalid, rfl⟩

theorem enters_loopStep (c : Context) : ∃ ws, Enters ws c (loopStep c).2 := by
  rcases atElement c with ⟨path, tag, children, hv⟩ | hv
  · rw [loopStep, run_bind, node_of_some hv]
    dsimp only
    cases tag.directive? "for" with
    | none => exact ⟨_, .refl c⟩
    | some d =>
      dsimp only
      split
      · exact ⟨_, .refl c⟩
      · refine (does_markSeen path "for").entersThen rfl fun news c₁ h₁ => ?_
        cases news with
        | false => exact ⟨_, .refl c₁⟩
        | true =>
          refine (does_loopHead d).entersThen rfl fun head c₂ h₂ => ?_
          cases head with
          | none => exact ⟨_, .refl c₂⟩
          | some head => exact enters_enterLoop (h₂.trans (h₁.trans hv)) head
  · rw [loopStep_of_other hv]
    exact ⟨_, .refl c⟩

end

/-- When the walk comes to a node, blocks are entered for it. The properties of an element are to be put
where the lists of the block end now. -/
theorem enters_approach (c : Context) : (∃ ws, Enters ws c (approach c).2) ∧
    ∃ others, (approach c).1 = .element ⟨some (approach c).2.block.effects.length,
      some (approach c).2.block.operations.length⟩ :: others := by
  let c₁ := (onceStep c).2
  let c₂ := (conditionStep c₁).2
  let c₃ := (loopStep c₂).2
  obtain ⟨ws, hcondition⟩ := enters_conditionStep c₁
  obtain ⟨ws', hloop⟩ := enters_loopStep c₂
  have hall := (((does_onceStep.enters rfl c).trans hcondition).trans hloop).trans
    (does_referenceStep.enters rfl c₃)
  exact ⟨⟨_, hall⟩, _, rfl⟩

/-- Whether a step enters a block only to have it left again, and does nothing else to the open blocks. -/
def Bracketing (step : Lower (List Exit)) : Prop :=
  ∀ c, (Idle 0 c (step c).2 ∧ (step c).1 = []) ∨
    (Idle 1 c (step c).2 ∧ ∃ exit, (step c).1 = [exit] ∧ exit.isClosing = true)

namespace Bracketing

theorem nothing : Bracketing (pure []) := fun c => Or.inl ⟨.refl c, rfl⟩

theorem bind {α : Type} {x : Lower α} {f : α → Lower (List Exit)} (hx : Idling x)
    (hf : ∀ a, Bracketing (f a)) : Bracketing (x >>= f) := by
  intro c
  rcases hf (x c).1 (x c).2 with ⟨hidle, hexits⟩ | ⟨hidle, hexits⟩
  · exact Or.inl ⟨(hx c).1.trans hidle, hexits⟩
  · exact Or.inr ⟨(hx c).1.trans hidle, hexits⟩

theorem stepwise : Stepwise [.object, .report] Bracketing where
  nothing := nothing
  bind := fun hx hd => bind (hx.idling (List.all_eq_true.mpr fun d hmem => by
    have hsmall := List.all_eq_true.mp hd d hmem
    cases d with
    | report | object => rfl
    | _ => cases hsmall))

end Bracketing

theorem bracketing_slotStep : Bracketing slotStep := by
  refine Bracketing.stepwise.slotStep (fun tag children d c => Or.inr ?_) fun tag d => ?_
  · rw [enterComponentSlots]
    dsimp only
    split
    · exact ⟨⟨⟨rfl, rfl⟩, rfl⟩, _, rfl, rfl⟩
    · exact ⟨⟨⟨rfl, rfl⟩, rfl⟩, _, rfl, rfl⟩
  · refine .bind ((does_flags fun _ => rfl).idling rfl) fun _ => .bind ((tells_slotHead _).idling rfl) fun head =>
      .bind ((does_pushScope _).idling rfl) fun _ c => Or.inr ?_
    exact ⟨⟨⟨rfl, rfl⟩, rfl⟩, _, rfl, rfl⟩

/-! ## What is left to do -/

theorem departs_runExit {exit : Exit} (hclosing : exit.isClosing = true) {c : Context}
    (h : c.saved ≠ []) : Departs c (runExit .none exit c).2 := by
  cases exit with
  | branch id condition =>
    have hset : ∀ op c, Idle 0 c (modifyPlan (fun p => { p with operation := some op }) c).2 :=
      fun op c => ((Deed.Changes.branch op).idle rfl).1
    exact (departs_exitBlock h).idle (hset _ _)
  | otherwise condition =>
    exact (departs_exitBlock h).idle ((does_attach _).idling rfl _).1
  | loop id head keyProperty component scope =>
    exact ((departs_exitBlock h).idle ((does_popScope scope).idling rfl _).1).idle
      ((does_setLoop id head keyProperty component _).idling rfl _).1
  | componentSlots d pattern firstOther scope =>
    have htake : Idle 0 c (takeSlots c).2 := ⟨⟨rfl, rfl⟩, rfl⟩
    have hleave : Departs (takeSlots c).2 (exitBlock (takeSlots c).2).2 := departs_exitBlock h
    exact ((htake.departs hleave).idle ((does_popScope scope).idling rfl _).1).idle
      ((tells_setComponentSlots d pattern firstOther _ _).idling rfl _).1
  | templateSlot d condition otherwise loop head scope =>
    exact ((departs_exitBlock h).idle ((does_popScope scope).idling rfl _).1).idle
      ((tells_setTemplateSlot d condition otherwise loop head _).idling rfl _).1
  | reference value | element cursor | added run => cases hclosing

/-! ## Work at a node -/

end Lower

def Effect.isProperty (e : Effect) : Bool := e.operations.any Operation.isProperty

/-- Whether what was added to a block sets no properties, and no nodes are among it. -/
structure View.IsWork (added : View) : Prop where
  effects : ∀ e ∈ added.effects, e.isProperty = false
  operations : ∀ op ∈ added.operations, op.isProperty = false
  outlines : added.outlines = []

theorem View.IsWork.empty : View.IsWork .empty := ⟨by simp [View.empty], by simp [View.empty], rfl⟩

theorem View.IsWork.append {added added' : View} (h : added.IsWork) (h' : added'.IsWork) :
    (added.append added').IsWork where
  effects := fun e he => (List.mem_append.mp he).elim (h.effects e) (h'.effects e)
  operations := fun op hop => (List.mem_append.mp hop).elim (h.operations op) (h'.operations op)
  outlines := by simp [View.append, h.outlines, h'.outlines]

namespace Lower

/-- Whether an action adds only work to the current block. -/
def Working {α : Type} (x : Lower α) : Prop := ∀ c, ∃ added, Extends added c (x c).2 ∧ added.IsWork

section

variable {α β : Type}

namespace Working

end Working

end

theorem extends_act (op : Operation) (c : Context) : Extends ⟨[], [op], []⟩ c (c.act op none) := by
  refine ⟨⟨rfl, ?_⟩, ?_, rfl⟩
  · simp [Context.act, isBehind]
  · simp [Context.view, OpenBlock.view, Context.act, View.append, insertAt]

theorem extends_addEffect (e : Effect) (c : Context) : Extends ⟨[e], [], []⟩ c (c.addEffect e none) := by
  refine ⟨⟨rfl, ?_⟩, ?_, rfl⟩
  · simp [Context.addEffect, isBehind]
  · simp [Context.view, OpenBlock.view, Context.addEffect, View.append, insertAt]

end Lower

def Deed.isWork (d : Deed) : Bool := d.isIdle || [.work, .nodes, .insertion].contains d

theorem Registered.working {op : Operation} (h : Registered op .atEnd c c')
    (hop : op.isProperty = false) : ∃ added, Extends added c c' ∧ added.IsWork := by
  cases h with
  | once => exact ⟨_, Lower.extends_act op c, ⟨by simp, by simpa using hop, rfl⟩⟩
  | again => exact ⟨_, Lower.extends_addEffect _ c, ⟨by simpa [Effect.isProperty] using hop, by simp, rfl⟩⟩

theorem Deed.Changes.working (h : Changes c d c') (hd : d.isWork = true) :
    ∃ added, Extends added c c' ∧ added.IsWork := by
  have hact : ∀ op : Operation, op.isProperty = false → ∃ added, Extends added c (c.act op none) ∧ added.IsWork :=
    fun op hop => Registered.working (.once : Registered op .atEnd c _) hop
  rcases Bool.or_eq_true_iff.mp hd with hd | hd
  · exact ⟨.empty, (h.idle hd).1.extended, .empty⟩
  · cases h with
    | work hop h => exact h.working hop.1
    | nodes | insertion => exact hact _ rfl
    | _ => simp at hd

namespace Lower

theorem Does.working (h : Does deeds x) (hd : deeds.all Deed.isWork = true) : Working x := by
  refine h.related (R := fun c c' => ∃ added, Extends added c c' ∧ added.IsWork)
    (fun c => ⟨_, .refl c, .empty⟩) ?_ fun d hmem _ _ hc => hc.working (List.all_eq_true.mp hd d hmem)
  rintro c c' c'' ⟨added, hext, hwork⟩ ⟨added', hext', hwork'⟩
  exact ⟨_, hext.trans hext', hwork.append hwork'⟩

/-! ## Insertions -/

theorem insert_of_mem_insertionRuns {index : Nat} {run : List Nat} {after : Bool} {plans : List NodePlan}
    {r : List Nat × RunPlace} (hr : r ∈ insertionRuns index run after plans) :
    r.1 ≠ [] ∧ ∀ i ∈ r.1, i ∈ run ∨ ∃ j n, i = index + j ∧ plans[j]? = some n ∧ n.insert = true := by
  induction plans generalizing index run after with
  | nil =>
    rw [insertionRuns] at hr
    split at hr
    · simp at hr
    · next hne =>
      rw [List.mem_singleton.mp hr]
      exact ⟨by simpa using hne, fun i hi => Or.inl hi⟩
  | cons plan plans ih =>
    -- what is known of the nodes behind the first holds at the next index
    have hshift : ∀ {run' : List Nat}, (∀ i ∈ run', i ∈ run ∨ i = index ∧ plan.insert = true) →
        ∀ i, (i ∈ run' ∨ ∃ j n, i = index + 1 + j ∧ plans[j]? = some n ∧ n.insert = true) →
          i ∈ run ∨ ∃ j n, i = index + j ∧ (plan :: plans)[j]? = some n ∧ n.insert = true := by
      rintro run' hrun' i (hi | ⟨j, n, rfl, hn, hinsert⟩)
      · rcases hrun' i hi with hi | ⟨rfl, hinsert⟩
        · exact Or.inl hi
        · exact Or.inr ⟨0, plan, rfl, rfl, hinsert⟩
      · exact Or.inr ⟨j + 1, n, by omega, by simpa using hn, hinsert⟩
    have hrun : ∀ i ∈ (if plan.insert then run ++ [index] else run), i ∈ run ∨ i = index ∧ plan.insert = true := by
      intro i hi
      split at hi
      · next hinsert =>
        rcases List.mem_append.mp hi with hi | hi
        · exact Or.inl hi
        · exact Or.inr ⟨List.mem_singleton.mp hi, hinsert⟩
      · exact Or.inl hi
    rw [insertionRuns] at hr
    dsimp only at hr
    generalize (if plan.insert then run ++ [index] else run) = run' at hr hrun
    split at hr
    · obtain ⟨hne, hmem⟩ := ih hr
      exact ⟨hne, fun i hi => hshift hrun i (hmem i hi)⟩
    · split at hr
      · obtain ⟨hne, hmem⟩ := ih hr
        exact ⟨hne, fun i hi => hshift (by simp) i (hmem i hi)⟩
      · next hne =>
        rcases List.mem_cons.mp hr with rfl | hr
        · exact ⟨by simpa using hne, fun i hi => hshift hrun i (Or.inl hi)⟩
        · obtain ⟨hne, hmem⟩ := ih hr
          exact ⟨hne, fun i hi => hshift (by simp) i (hmem i hi)⟩

theorem extends_insertRun (run : List Nat) (anchor : Option Anchor) (c : Context) :
    (∃ added, Extends added c (insertRun run anchor c).2 ∧ added.IsWork) ∧
      (insertRun run anchor c).2.frame.plan.children.map NodePlan.insert =
        c.frame.plan.children.map NodePlan.insert := by
  let c₁ := (reference c).2
  let into : Insertion := ⟨(reference c).1, anchor⟩
  let c₂ := c₁.withChildren (NodePlan.insertRun run into c₁.frame.plan.children)
  have hchildren : c₁.frame.plan.children = c.frame.plan.children := (plain_reference.tidy c).children
  have hplaced : Idle 0 c c₂ := by
    refine Idle.trans (does_reference.idling rfl c).1 ⟨⟨rfl, rfl⟩, ?_⟩
    simp only [c₂, Context.views, Context.view, Context.withChildren, OpenBlock.view, outline_insertRun,
      List.replicate_zero, List.nil_append, c₁]
  have hflags : c₂.frame.plan.children.map NodePlan.insert = c.frame.plan.children.map NodePlan.insert := by
    rw [← hchildren]
    exact NodePlan.map_insertRun (fun _ => rfl) run c₁.frame.plan.children
  rw [insertRun_eq]
  dsimp only
  split
  · exact ⟨⟨_, hplaced.extended, .empty⟩, hflags⟩
  · obtain ⟨added, hext, hwork⟩ :=
      (Deed.Changes.insertion (c := c₂) (NodePlan.clonedIn run c₁.frame.plan.children) into).working rfl
    exact ⟨⟨_, hplaced.extended.trans hext, View.IsWork.empty.append hwork⟩, hflags⟩

theorem extends_insertRuns {runs : List (List Nat × RunPlace)} {c : Context}
    (h : ∀ r ∈ runs, (c.frame.plan.children.map NodePlan.insert)[r.1.headD 0]? ≠ some false) :
    ∃ added, Extends added c (insertRuns runs c).2 ∧ added.IsWork := by
  induction runs generalizing c with
  | nil => exact ⟨_, .refl c, .empty⟩
  | cons r runs ih =>
    obtain ⟨run, place⟩ := r
    have hhead := h _ List.mem_cons_self
    have hrest := fun r hr => h r (List.mem_cons_of_mem _ hr)
    -- the step for one run keeps the nodes that are inserted
    have hstep : ∀ (c₁ : Context) (anchor : Option Anchor), (∃ added, Extends added c c₁ ∧ added.IsWork) →
        c₁.frame.plan.children.map NodePlan.insert = c.frame.plan.children.map NodePlan.insert →
        ∃ added, Extends added c (insertRuns runs (insertRun run anchor c₁).2).2 ∧ added.IsWork := by
      rintro c₁ anchor ⟨added, hext, hwork⟩ hflags
      obtain ⟨⟨added', hext', hwork'⟩, hflags'⟩ := extends_insertRun run anchor c₁
      obtain ⟨added'', hext'', hwork''⟩ := ih (c := (insertRun run anchor c₁).2)
        (by rw [hflags', hflags]; exact hrest)
      exact ⟨_, (hext.trans hext').trans hext'', (hwork.append hwork').append hwork''⟩
    cases place with
    | front | back => exact hstep c _ ⟨_, .refl c, .empty⟩ rfl
    | middle =>
      refine hstep (putPlaceholder (run.headD 0) c).2 _ ⟨_, Idle.extended ⟨⟨rfl, rfl⟩, ?_⟩, .empty⟩ ?_
      · have hinsert : ∀ n, c.frame.plan.children[run.headD 0]? = some n → n.insert = true := by
          intro n hn
          rw [List.getElem?_map, hn] at hhead
          simpa using hhead
        have houtline := outline_putPlaceholder c.nextId hinsert
        rw [putPlaceholder_eq]
        simp only [Context.views, Context.view, OpenBlock.view, houtline, List.replicate_zero,
          List.nil_append]
      · rw [putPlaceholder_eq]
        refine List.ext_getElem? fun i => ?_
        rw [List.getElem?_map, List.getElem?_map, List.getElem?_modify]
        cases c.frame.plan.children[i]? with
        | none => rfl
        | some n =>
          show some (NodePlan.insert (if run.headD 0 = i then n.held c.nextId else n)) = some n.insert
          split <;> rfl

theorem extends_insertionRuns (c : Context) : ∃ added,
    Extends added c (insertRuns (insertionRuns 0 [] false c.frame.plan.children) c).2 ∧ added.IsWork := by
  refine extends_insertRuns fun r hr hfalse => ?_
  obtain ⟨hne, hmem⟩ := insert_of_mem_insertionRuns hr
  have hhead : r.1.headD 0 ∈ r.1 := by
    obtain ⟨i, is, hr⟩ := List.exists_cons_of_ne_nil hne
    rw [hr]
    exact List.mem_cons_self
  obtain hnone | ⟨j, n, hj, hn, hinsert⟩ := hmem _ hhead
  · simp at hnone
  · rw [hj, Nat.zero_add, List.getElem?_map, hn, Option.map_some, hinsert] at hfalse
    simp at hfalse

/-! ## Visits below a node -/

theorem extends_takeChild {s : Visited} {index : Nat} {c c₁ : Context}
    (h : Extends added (c.enterChild s index) c₁) (isFragment : Bool) :
    let c₂ := if isFragment then (addToBlock c₁).2 else c₁
    Extends ⟨added.effects, added.operations, [c₂.frame.plan.outline]⟩ c (takeChild isFragment c₁).2 := by
  intro c₂
  have h₂ : Extends added (c.enterChild s index) c₂ := by
    simp only [c₂]
    split
    · have hall := h.trans (does_addToBlock.idling rfl c₁).1.extended
      rw [View.append_empty] at hall
      exact hall
    · exact h
  obtain ⟨parent, outer, houter, hparent, haround⟩ := List.map_eq_cons_iff.mp h₂.around
  have houter₁ : c₁.outer = parent :: outer := by
    rw [← houter]
    simp only [c₂]
    split
    · exact (addToBlock_outer c₁).symm
    · rfl
  have heffects : c₂.block.effects = c.block.effects ++ added.effects := congrArg View.effects h₂.view
  have hoperations : c₂.block.operations = c.block.operations ++ added.operations :=
    congrArg View.operations h₂.view
  have hchildren : parent.plan.children.map NodePlan.outline = c.frame.plan.children.map NodePlan.outline :=
    hparent
  rw [takeChild_eq houter₁]
  refine ⟨⟨haround, h₂.overrun⟩, ?_, h₂.saved⟩
  show View.mk c₂.block.effects c₂.block.operations
    ((parent.plan.children ++ [c₂.frame.plan]).map NodePlan.outline) = _
  rw [heffects, hoperations, List.map_append, hchildren]
  rfl

theorem idle_nested {r : Visited} {c c₁ : Context} (h : Extends added (enterNested r c) c₁) :
    Idle 0 c (popFrame (exitBlock c₁).2).2 := by
  have hsaved : c₁.saved ≠ [] := by
    intro hnil
    have hsame := h.saved
    rw [hnil] at hsame
    cases hsame
  have hleave := departs_exitBlock hsaved
  have hviews : (exitBlock c₁).2.views =
      ⟨c.block.effects, c.block.operations, []⟩ :: c.saved.map SavedBlock.view := by
    rw [hleave.views, h.views]
    rfl
  obtain ⟨hview, hrest⟩ := List.cons.inj hviews
  have haround := hleave.around.trans h.around
  obtain ⟨parent, outer, houter, hparent, haround⟩ := List.map_eq_cons_iff.mp haround
  have heffects : (exitBlock c₁).2.block.effects = c.block.effects := congrArg View.effects hview
  have hoperations : (exitBlock c₁).2.block.operations = c.block.operations := congrArg View.operations hview
  rw [popFrame_of_cons houter]
  refine ⟨⟨haround, hleave.overrun.trans h.overrun⟩, ?_⟩
  show View.mk (exitBlock c₁).2.block.effects (exitBlock c₁).2.block.operations parent.outlines ::
    (exitBlock c₁).2.saved.map SavedBlock.view = _
  rw [heffects, hoperations, hparent, hrest]
  rfl

end Lower

end JsxTemplate
