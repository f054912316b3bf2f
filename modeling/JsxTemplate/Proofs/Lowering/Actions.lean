import JsxTemplate.Lowering
import JsxTemplate.Proofs.Plan.Nodes

/-!
# What the basic actions do

The actions of the walk are functions on its state. Here the state that each basic action leaves is
written out, so that later proofs need not open the actions.
-/

namespace JsxTemplate

variable {c : Context}

theorem Visited.children_of_isTextLike {v : Visited} (h : v.isTextLike = true) : v.children = [] := by
  match v, h with
  | .node _ (.text _ _), _ | .node _ (.expression _ _ _), _ => rfl

namespace Lower

/-! ## Running actions -/

section

variable {α β : Type}

@[simp] theorem run_pure (a : α) (c : Context) : (pure a : Lower α) c = (a, c) := rfl

@[simp] theorem run_bind (x : Lower α) (f : α → Lower β) (c : Context) :
    (x >>= f) c = f (x c).1 (x c).2 := rfl

@[simp] theorem run_map (f : α → β) (x : Lower α) (c : Context) :
    (f <$> x) c = (f (x c).1, (x c).2) := rfl

@[simp] theorem run_get (c : Context) : (get : Lower Context) c = (c, c) := rfl

theorem run_node (c : Context) : node c = (c.frame.node, c) := rfl

theorem node_of_some {c : Context} {v : Visited} (hv : c.frame.node = some v) : node c = (some v, c) :=
  congrArg (·, c) hv

@[simp] theorem run_set (c c' : Context) : (set c' : Lower PUnit) c = (⟨⟩, c') := rfl

@[simp] theorem run_modify (f : Context → Context) (c : Context) :
    (modify f : Lower PUnit) c = (⟨⟩, f c) := rfl

@[simp] theorem run_ite (p : Prop) [Decidable p] (x y : Lower α) (c : Context) :
    (if p then x else y) c = if p then x c else y c := by
  split <;> rfl

end

end Lower

/-! ## Numbers -/

def Context.number (c : Context) : Context :=
  { c with
    nextId := c.nextId + 1
    frame := { c.frame with plan := { c.frame.plan with id := some c.nextId, referenced := true } } }

theorem NodePlan.eta (n : NodePlan) : ⟨n.id, n.referenced, n.nonTemplate, n.insert, n.anchor, n.children,
    n.template, n.hasDynamicChild, n.operation⟩ = n := by
  cases n
  rfl

namespace Lower

theorem reference_of_some {id : Nat} (h : c.frame.plan.id = some id) : reference c = (id, c) := by
  simp [reference, h]

theorem reference_of_none (h : c.frame.plan.id = none) : reference c = (c.nextId, c.number) := by
  simp [reference, h, freshId, modifyPlan, modifyFrame, Context.number]

theorem reference_state (c : Context) : ∃ nextId id referenced, (reference c).2 =
    { c with nextId, frame := { c.frame with plan := { c.frame.plan with id, referenced } } } := by
  cases h : c.frame.plan.id with
  | none => exact ⟨_, _, _, by rw [reference_of_none h]; rfl⟩
  | some id => exact ⟨c.nextId, c.frame.plan.id, _, by rw [reference_of_some h, NodePlan.eta]⟩

theorem reference_id (c : Context) : (reference c).2.frame.plan.id = some (reference c).1 := by
  cases h : c.frame.plan.id with
  | none => rw [reference_of_none h]; rfl
  | some id => rw [reference_of_some h]; exact h

@[simp] theorem reference_outer (c : Context) : (reference c).2.outer = c.outer := by
  obtain ⟨_, _, _, h⟩ := reference_state c
  rw [h]

@[simp] theorem reference_seen (c : Context) : (reference c).2.seen = c.seen := by
  obtain ⟨_, _, _, h⟩ := reference_state c
  rw [h]

end Lower

/-! ## The node around -/

namespace Lower

theorem modifyParent_of_nil (h : c.outer = []) (f : Frame → Frame) : modifyParent f c = ((), c) := by
  simp only [modifyParent, run_modify, h]

theorem modifyParent_of_cons {parent : Frame} {outer : List Frame} (h : c.outer = parent :: outer)
    (f : Frame → Frame) : modifyParent f c = ((), { c with outer := f parent :: outer }) := by
  simp only [modifyParent, run_modify, h]

theorem modifyParent_run (f : Frame → Frame) (c : Context) :
    modifyParent f c = ((), { c with outer := c.outer.modifyHead f }) := by
  cases h : c.outer with
  | nil => rw [modifyParent_of_nil h, List.modifyHead_nil, ← h]
  | cons parent outer => rw [modifyParent_of_cons h, List.modifyHead_cons]

theorem setTemplateSlot_cases (d : Directive) (condition otherwise loop : Option Directive)
    (head : Option LoopHead) (block : Block) (c : Context) :
    (setTemplateSlot d condition otherwise loop head block c).2 = c ∨
    (∃ mistake : Diagnostic, (setTemplateSlot d condition otherwise loop head block c).2 =
      (report mistake.code mistake.loc c).2) ∨
    ∃ parent outer slots, c.outer = parent :: outer ∧
      SlotGroup.addTemplate parent.slots d ⟨block, d.exp⟩ condition otherwise loop head = .ok slots ∧
      (setTemplateSlot d condition otherwise loop head block c).2 =
        { c with outer := { parent with slots } :: outer } := by
  have hparent : parentFrame? c = (c.outer.head?, c) := rfl
  rw [setTemplateSlot, run_bind, hparent]
  cases houter : c.outer with
  | nil => exact Or.inl rfl
  | cons parent outer =>
    dsimp only [List.head?_cons]
    cases hadd : SlotGroup.addTemplate parent.slots d ⟨block, d.exp⟩ condition otherwise loop head with
    | error mistake => exact Or.inr (Or.inl ⟨mistake, rfl⟩)
    | ok slots =>
      dsimp only
      rw [modifyParent_of_cons houter]
      exact Or.inr (Or.inr ⟨parent, outer, slots, rfl, hadd, rfl⟩)

theorem popFrame_of_nil (h : c.outer = []) : popFrame c = (c.frame, c) := by
  simp only [popFrame, run_bind, run_get, h, run_pure]

theorem popFrame_of_cons {parent : Frame} {outer : List Frame} (h : c.outer = parent :: outer) :
    popFrame c = (c.frame, { c with frame := parent, outer }) := by
  simp only [popFrame, run_bind, run_get, h, run_set, run_pure]

theorem popFrame_run (c : Context) :
    popFrame c = (c.frame, { c with frame := c.outer.headD c.frame, outer := c.outer.tail }) := by
  cases h : c.outer with
  | nil => rw [popFrame_of_nil h, List.headD_nil, List.tail_nil, ← h]
  | cons parent outer => rw [popFrame_of_cons h, List.headD_cons, List.tail_cons]

end Lower

/-! ## Operations -/

def Context.act (c : Context) (op : Operation) (index : Option Nat) : Context :=
  { c with
    block := { c.block with operations := (Lower.insertAt c.block.operations op index).1 }
    overrun := c.overrun || Lower.isBehind c.block.operations index }

def Context.addEffect (c : Context) (effect : Effect) (index : Option Nat) : Context :=
  { c with
    block := { c.block with effects := (Lower.insertAt c.block.effects effect index).1 }
    overrun := c.overrun || Lower.isBehind c.block.effects index }

namespace Lower

theorem registerEffect_cases (expressions : List Expression) (op : Operation) (cursor : Cursor)
    (c : Context) :
    (∃ next, (registerEffect expressions op cursor c) =
      ({ cursor with operation := next }, c.act op cursor.operation) ∧
      next = (insertAt c.block.operations op cursor.operation).2) ∨
    ∃ es next, (registerEffect expressions op cursor c) =
      ({ cursor with effect := next }, c.addEffect ⟨es, [op]⟩ cursor.effect) ∧
      next = (insertAt c.block.effects ⟨es, [op]⟩ cursor.effect).2 := by
  cases h : c.frame.once || (expressions.filter fun e => !e.isConstant).isEmpty with
  | true =>
    left
    refine ⟨_, ?_, rfl⟩
    simp only [registerEffect, inOnce, run_bind, run_get, run_pure, h, if_true, registerOperation,
      run_set, Context.act]
  | false =>
    right
    refine ⟨expressions.filter fun e => !e.isConstant, _, ?_, rfl⟩
    simp only [registerEffect, inOnce, run_bind, run_get, run_pure, h, Bool.false_eq_true, if_false,
      run_set, Context.addEffect]

def changing (expressions : List Expression) : List Expression :=
  expressions.filter fun e => !e.isConstant

section

variable {c : Context} {expressions : List Expression}

theorem registerEffect_of_silent (h : c.frame.once = true ∨ changing expressions = [])
    (op : Operation) (cursor : Cursor) :
    registerEffect expressions op cursor c =
      ({ cursor with operation := (insertAt c.block.operations op cursor.operation).2 },
        c.act op cursor.operation) := by
  have hs : (c.frame.once || (changing expressions).isEmpty) = true := by simpa using h
  simp only [changing] at hs
  simp only [registerEffect, inOnce, run_bind, run_get, run_pure, hs, if_true, registerOperation,
    run_set, Context.act]

theorem registerEffect_of_lively (honce : c.frame.once = false) (h : changing expressions ≠ [])
    (op : Operation) (cursor : Cursor) :
    registerEffect expressions op cursor c =
      ({ cursor with effect := (insertAt c.block.effects ⟨changing expressions, [op]⟩ cursor.effect).2 },
        c.addEffect ⟨changing expressions, [op]⟩ cursor.effect) := by
  have hs : (c.frame.once || (changing expressions).isEmpty) = false := by simpa [honce] using h
  simp only [changing] at hs
  simp only [registerEffect, inOnce, run_bind, run_get, run_pure, hs, Bool.false_eq_true, if_false,
    run_set, Context.addEffect, changing]

theorem silent_or_lively (c : Context) (expressions : List Expression) :
    (c.frame.once = true ∨ changing expressions = []) ∨
      c.frame.once = false ∧ changing expressions ≠ [] := by
  cases c.frame.once with
  | true => exact Or.inl (Or.inl rfl)
  | false => exact (em (changing expressions = [])).imp Or.inr fun h => ⟨rfl, h⟩

end

end Lower

/-! ## Markup -/

namespace Lower

theorem pushTemplate_spec (content : String) (c : Context) :
    ∃ pieces, (pushTemplate content c).2 = { c with templates := pieces } ∧
      c.templates <+: pieces ∧ pieces[(pushTemplate content c).1]? = some content := by
  cases h : c.templates.idxOf? content with
  | some k =>
    refine ⟨c.templates, ?_, List.prefix_refl _, ?_⟩
    · simp [pushTemplate, h]
    · obtain ⟨hk, heq, -⟩ := List.findIdx?_eq_some_iff_getElem.mp h
      simp only [pushTemplate, run_bind, run_get, h, run_pure]
      rw [List.getElem?_eq_getElem hk, beq_iff_eq.mp heq]
  | none =>
    refine ⟨c.templates ++ [content], ?_, List.prefix_append _ _, ?_⟩
    · simp [pushTemplate, h]
    · simp [pushTemplate, h]

theorem registerTemplate_run (c : Context) :
    registerTemplate c = (if c.discarding || c.frame.template.isEmpty then return none
      else do
        let index ← pushTemplate c.frame.template
        modifyPlan fun p => { p with template := some index }
        return some index : Lower (Option Nat)) c := rfl

/-- The markup of a node becomes a piece of its own, unless it is empty or dropped. -/
theorem registerTemplate_cases (c : Context) :
    (registerTemplate c = (none, c) ∧ (c.discarding = true ∨ c.frame.template = "")) ∨
      ∃ k pieces, registerTemplate c = (some k,
          { c with
            templates := pieces
            frame := { c.frame with plan := { c.frame.plan with template := some k } } }) ∧
        c.templates <+: pieces ∧ pieces[k]? = some c.frame.template ∧ c.discarding = false ∧
        c.frame.template ≠ "" := by
  by_cases hdrop : (c.discarding || c.frame.template.isEmpty) = true
  · left
    refine ⟨?_, by simpa using hdrop⟩
    rw [registerTemplate_run, if_pos hdrop, run_pure]
  · right
    obtain ⟨pieces, hstate, hle, hk⟩ := pushTemplate_spec c.frame.template c
    refine ⟨(pushTemplate c.frame.template c).1, pieces, ?_, hle, hk, ?_⟩
    · rw [registerTemplate_run, if_neg hdrop, run_bind, hstate]
      rfl
    · simpa using hdrop

end Lower

/-! ## Blocks -/

def Context.leave (c : Context) (s : SavedBlock) (saved : List SavedBlock) : Context :=
  { c with
    block := s.block
    discarding := s.discarding
    frame :=
      { c.frame with
        plan := s.plan
        template := s.template
        childTemplates := s.childTemplates
        slots := s.slots }
    saved
    loopDepth := if s.isLoop then c.loopDepth - 1 else c.loopDepth
    log := .left :: c.log }

namespace Lower

theorem exitBlock_of_saved {s : SavedBlock} {saved : List SavedBlock} (h : c.saved = s :: saved) :
    ∃ template pieces, c.templates <+: pieces ∧ exitBlock c =
      (c.block.close { c.frame.plan with template },
        { c.leave s saved with templates := pieces }) := by
  rcases registerTemplate_cases c with ⟨hr, -⟩ | ⟨k, pieces, hr, hle, -⟩
  · refine ⟨c.frame.plan.template, c.templates, List.prefix_refl _, ?_⟩
    rw [NodePlan.eta]
    simp only [exitBlock, note, run_bind, run_get, run_set, run_modify, run_pure, hr, h, Context.leave]
  · refine ⟨some k, pieces, hle, ?_⟩
    simp [exitBlock, note, hr, h, Context.leave]

theorem exitBlock_of_nil (h : c.saved = []) :
    ∃ template pieces, c.templates <+: pieces ∧ exitBlock c =
      (OpenBlock.close (.empty .stub) .empty,
        { c with
          templates := pieces
          frame := { c.frame with plan := { c.frame.plan with template } }
          log := .left :: c.log }) := by
  rcases registerTemplate_cases c with ⟨hr, -⟩ | ⟨k, pieces, hr, hle, -⟩
  · refine ⟨c.frame.plan.template, c.templates, List.prefix_refl _, ?_⟩
    rw [NodePlan.eta]
    simp only [exitBlock, note, run_bind, run_get, run_modify, run_pure, hr, h]
  · refine ⟨some k, pieces, hle, ?_⟩
    simp [exitBlock, note, hr, h]

theorem exitBlock_state (c : Context) :
    ∃ templates block plan template childTemplates slots saved loopDepth discarding, (exitBlock c).2 =
      { c with
        templates, block, saved, loopDepth, discarding
        frame := { c.frame with plan, template, childTemplates, slots }
        log := .left :: c.log } := by
  rcases h : c.saved with _ | ⟨s, saved⟩
  · obtain ⟨template, pieces, -, heq⟩ := exitBlock_of_nil h
    exact ⟨pieces, c.block, _, c.frame.template, c.frame.childTemplates, c.frame.slots, c.saved, c.loopDepth,
      c.discarding, by rw [heq]⟩
  · obtain ⟨template, pieces, -, heq⟩ := exitBlock_of_saved h
    exact ⟨pieces, _, _, _, _, _, _, _, _, by rw [heq]; rfl⟩

section

variable (c : Context)

theorem exitBlock_node : (exitBlock c).2.frame.node = c.frame.node := by
  obtain ⟨_, _, _, _, _, _, _, _, _, h⟩ := exitBlock_state c
  rw [h]

theorem exitBlock_once : (exitBlock c).2.frame.once = c.frame.once := by
  obtain ⟨_, _, _, _, _, _, _, _, _, h⟩ := exitBlock_state c
  rw [h]

theorem exitBlock_aborted : (exitBlock c).2.aborted = c.aborted := by
  obtain ⟨_, _, _, _, _, _, _, _, _, h⟩ := exitBlock_state c
  rw [h]

@[simp] theorem exitBlock_outer : (exitBlock c).2.outer = c.outer := by
  obtain ⟨_, _, _, _, _, _, _, _, _, h⟩ := exitBlock_state c
  rw [h]

end

end Lower

/-! ## Marks -/

namespace Lower

theorem markSeen_run (path : Path) (purpose : String) (c : Context) :
    markSeen path purpose c = (if c.seen.contains (path, purpose) then return false else do
      modify fun c => { c with seen := (path, purpose) :: c.seen }
      return true : Lower Bool) c := rfl

theorem markSeen_of_mem {path : Path} {purpose : String} (h : (path, purpose) ∈ c.seen) :
    markSeen path purpose c = (false, c) := by
  rw [markSeen_run, if_pos (by simpa using h), run_pure]

theorem markSeen_of_not_mem {path : Path} {purpose : String} (h : (path, purpose) ∉ c.seen) :
    markSeen path purpose c = (true, { c with seen := (path, purpose) :: c.seen }) := by
  rw [markSeen_run, if_neg (by simpa using h)]
  rfl

end Lower

theorem Lower.markAllSeen_eq (vs : List Visited) (c : Context) :
    ∃ seen, (markAllSeen vs c).2 = { c with seen } ∧ (∀ m ∈ c.seen, m ∈ seen) ∧
      (∀ v ∈ vs, (v.path, textPurpose) ∈ seen) ∧
      ∀ m ∈ seen, m ∈ c.seen ∨ ∃ v ∈ vs, m = (v.path, textPurpose) := by
  induction vs generalizing c with
  | nil => exact ⟨c.seen, rfl, fun _ hm => hm, by simp, fun _ hm => Or.inl hm⟩
  | cons v vs ih =>
    obtain ⟨seen₁, hmark, hsub₁, hmem₁, hnew₁⟩ : ∃ seen, (markSeen v.path textPurpose c).2 =
        { c with seen } ∧ (∀ m ∈ c.seen, m ∈ seen) ∧ (v.path, textPurpose) ∈ seen ∧
        ∀ m ∈ seen, m ∈ c.seen ∨ m = (v.path, textPurpose) := by
      by_cases hm : (v.path, textPurpose) ∈ c.seen
      · exact ⟨c.seen, by rw [markSeen_of_mem hm], fun _ h => h, hm, fun _ h => Or.inl h⟩
      · exact ⟨(v.path, textPurpose) :: c.seen, by rw [markSeen_of_not_mem hm],
          fun _ h => List.mem_cons_of_mem _ h, List.mem_cons_self,
          fun m h => (List.mem_cons.mp h).symm⟩
    obtain ⟨seen₂, hrest, hsub₂, hmem₂, hnew₂⟩ := ih { c with seen := seen₁ }
    refine ⟨seen₂, ?_, fun m hm => hsub₂ m (hsub₁ m hm), ?_, ?_⟩
    · simp only [markAllSeen, run_bind, hmark]
      exact hrest
    · intro w hw
      rcases List.mem_cons.mp hw with rfl | hw
      · exact hsub₂ _ hmem₁
      · exact hmem₂ w hw
    · intro m hm
      rcases hnew₂ m hm with hm | ⟨w, hw, rfl⟩
      · rcases hnew₁ m hm with hm | rfl
        · exact Or.inl hm
        · exact Or.inr ⟨v, List.mem_cons_self, rfl⟩
      · exact Or.inr ⟨w, List.mem_cons_of_mem _ hw, rfl⟩

theorem Lower.groupValues_eq (nodes : List Visited) (c : Context) :
    ∃ seen, groupValues nodes c = (nodes.filterMap groupValue?, { c with seen }) ∧
      (∀ v ∈ nodes, (v.path, textPurpose) ∈ seen) ∧
      ∀ m ∈ seen, m ∈ c.seen ∨ ∃ v ∈ nodes, m = (v.path, textPurpose) := by
  obtain ⟨seen, heq, -, hall, hnew⟩ := markAllSeen_eq nodes c
  refine ⟨seen, ?_, hall, hnew⟩
  rw [groupValues, run_bind, heq]
  rfl

/-- What is done for an element that holds only texts and expressions. -/
def Lower.lowerTextContainer (visit : Lower Unit) (children : List Visited) : Lower Unit :=
  runText visit (prepareContainer children)

/-! ## Children -/

/-- The state in which a child is visited. -/
def Context.enterChild (c : Context) (child : Visited) (index : Nat) : Context :=
  { c with frame := .ofNode child index c.frame.once, outer := c.frame :: c.outer }

/-- The state after a child was left in the state `c'`, if nothing around it was changed. -/
def Context.adopt (c c' : Context) (isFragment : Bool) : Context :=
  { c' with
    outer := c.outer
    frame :=
      { c.frame with
        childTemplates :=
          if isFragment then c.frame.childTemplates else c.frame.childTemplates ++ [c'.frame.template]
        plan :=
          { c.frame.plan with
            hasDynamicChild := c.frame.plan.hasDynamicChild || Lower.needsAttention c'.frame.plan
            children := c.frame.plan.children ++ [c'.frame.plan] } } }

theorem Lower.addToBlock_eq (c : Context) :
    ∃ roots, (addToBlock c).2 =
      let c' := (registerTemplate (reference c).2).2
      { c' with
        rootTemplates := roots
        block :=
          { c'.block with
            returns := c'.block.returns ++
              if c'.frame.plan.isPresent then c'.frame.plan.id.toList else [] } } := by
  let c' := (registerTemplate (reference c).2).2
  let roots := if c'.frame.rootTemplate
    then c'.rootTemplates ++ (registerTemplate (reference c).2).1.toList else c'.rootTemplates
  have hroots : (noteRootTemplate (registerTemplate (reference c).2).1 c').2 =
      { c' with rootTemplates := roots } := by
    simp only [noteRootTemplate, run_modify, roots]
    split <;> rfl
  refine ⟨roots, ?_⟩
  have hreturns : ∀ d : Context, (if !d.frame.plan.nonTemplate || d.frame.plan.insert then
      { d with block := { d.block with returns := d.block.returns ++ d.frame.plan.id.toList } }
      else d) = { d with block := { d.block with returns := d.block.returns ++
        if d.frame.plan.isPresent then d.frame.plan.id.toList else [] } } := by
    intro d
    cases hp : d.frame.plan.isPresent with
    | true => exact if_pos hp
    | false => exact (if_neg (ne_true_of_eq_false hp)).trans (by simp)
  simp only [addToBlock, giveBack, run_bind, run_modify, hroots, c', hreturns]

namespace Lower

theorem addToBlock_outer (c : Context) : (addToBlock c).2.outer = c.outer := by
  obtain ⟨roots, heq⟩ := addToBlock_eq c
  rw [heq]
  rcases registerTemplate_cases (reference c).2 with ⟨hr, -⟩ | ⟨k, pieces, hr, -⟩
  · rw [hr]
    exact reference_outer c
  · rw [hr]
    exact reference_outer c

/-- What is done with a child that was visited. -/
def takeChild (isFragment : Bool) : Lower Unit := do
  if isFragment then addToBlock
  let frame ← popFrame
  addChild isFragment frame

theorem popFrame_aborted (c : Context) : (popFrame c).2.aborted = c.aborted := by
  rw [popFrame_run]

theorem lowerChildren_cons (visit : Lower Unit) (isFragment : Bool) (index : Nat) (child : Visited)
    (children : List Visited) (c : Context) :
    lowerChildren visit isFragment index (child :: children) c =
      (if (visit (c.enterChild child index)).2.aborted then do
        let _ ← popFrame
        return false
      else do
        takeChild isFragment
        lowerChildren visit isFragment (index + 1) children : Lower Bool)
      (visit (c.enterChild child index)).2 := by
  rw [lowerChildren]
  cases isFragment <;> rfl

theorem takeChild_eq {isFragment : Bool} {p : Frame} {ps : List Frame} (h : c.outer = p :: ps) :
    (takeChild isFragment c).2 =
      let c' := if isFragment then (addToBlock c).2 else c
      { c' with frame := p, outer := ps }.adopt c' isFragment := by
  cases isFragment with
  | false =>
    simp only [takeChild, Bool.false_eq_true, if_false, run_bind, run_pure, popFrame, run_get, h]
    rfl
  | true =>
    have h' := (addToBlock_outer c).trans h
    simp only [takeChild, if_true, run_bind, popFrame, run_get, h']
    rfl

end Lower

/-! ## Insertions -/

def Context.withChildren (c : Context) (children : List NodePlan) : Context :=
  { c with frame := { c.frame with plan := { c.frame.plan with children } } }

theorem Lower.insertRun_eq (run : List Nat) (place : Option Anchor) (c : Context) :
    (insertRun run place c).2 =
      let p := (reference c).1
      let c' := (reference c).2
      let cloned := NodePlan.clonedIn run c'.frame.plan.children
      let placed := c'.withChildren (NodePlan.insertRun run ⟨p, place⟩ c'.frame.plan.children)
      if cloned.isEmpty then placed else placed.act (.insertNodes cloned ⟨p, place⟩) none := by
  have hrun : insertRun run place c =
      (if !(NodePlan.clonedIn run (reference c).2.frame.plan.children).isEmpty then
        addOperation (.insertNodes (NodePlan.clonedIn run (reference c).2.frame.plan.children)
          ⟨(reference c).1, place⟩) else return () : Lower Unit)
      ((reference c).2.withChildren (NodePlan.insertRun run ⟨(reference c).1, place⟩
        (reference c).2.frame.plan.children)) := rfl
  rw [hrun]
  cases hcloned : (NodePlan.clonedIn run (reference c).2.frame.plan.children).isEmpty with
  | true =>
    simp only [hcloned, if_true]
    rfl
  | false =>
    simp only [hcloned, Bool.false_eq_true, if_false]
    rfl

/-- A node in whose place a placeholder stands. -/
def NodePlan.held (a : Nat) (n : NodePlan) : NodePlan :=
  { n with nonTemplate := false, anchor := some a }

theorem Lower.putPlaceholder_eq (index : Nat) (c : Context) :
    putPlaceholder index c = (c.nextId,
      { c with
        nextId := c.nextId + 1
        frame :=
          { c.frame with
            plan :=
              { c.frame.plan with
                children := c.frame.plan.children.modify index (NodePlan.held c.nextId) }
            childTemplates := c.frame.childTemplates.set index "<!>" } }) := rfl

namespace Lower

end Lower

/-! ## Conditions -/

theorem NodePlan.map_insertRun {β : Type} {f : NodePlan → β} {into : Insertion}
    (hf : ∀ n : NodePlan, f { n with operation := n.operation.map (Operation.insertAt into) } = f n)
    (run : List Nat) (children : List NodePlan) : (insertRun run into children).map f = children.map f := by
  have hstep : ∀ child : NodePlan × Nat, f (if run.contains child.2 && child.1.template.isNone then
      { child.1 with operation := child.1.operation.map (Operation.insertAt into) } else child.1) =
        f child.1 := by
    intro child
    split
    · exact hf child.1
    · rfl
  calc (insertRun run into children).map f
      = children.zipIdx.map (f ∘ Prod.fst) := by
        rw [insertRun, List.map_map]
        exact List.map_congr_left fun child _ => hstep child
    _ = children.map f := by rw [← List.map_map, List.zipIdx_map_fst]

def NodePlan.withOperation (n : NodePlan) (op : Operation) : NodePlan :=
  { n with operation := some op }

theorem mapLastBranch_cases (f : Branch → Branch) (plans : List NodePlan) :
    mapLastBranch f plans = plans ∨ ∃ a n b c into, plans = a ++ n :: b ∧
      n.operation = some (.branch c into) ∧
      mapLastBranch f plans = a ++ n.withOperation (.branch (f c) into) :: b := by
  induction plans with
  | nil => exact Or.inl rfl
  | cons n plans ih =>
    rcases hop : n.operation with _ | op
    · simp only [mapLastBranch, hop]
      rcases ih with ih | ⟨a, m, b, c, into, hplans, hm, hmap⟩
      · exact Or.inl (by rw [ih])
      · exact Or.inr ⟨n :: a, m, b, c, into, by rw [hplans]; rfl, hm, by rw [hmap]; rfl⟩
    · cases op with
      | branch c into =>
        refine Or.inr ⟨[], n, plans, c, into, rfl, hop, ?_⟩
        simp [mapLastBranch, hop, NodePlan.withOperation]
      | _ => exact Or.inl (by simp only [mapLastBranch, hop])

/-! ## Elements inside expressions -/

namespace Lower

/-- The state in which an element inside an expression is visited. -/
def enterNested (r : Visited) (c : Context) : Context := (enterBlock r.loc false (c.enterChild r 0)).2

theorem nestedBlocks_cons (visit : Lower Unit) (r : Visited) (roots : List Visited) (c : Context) :
    nestedBlocks visit (r :: roots) c =
      let c₁ := (exitBlock (visit (enterNested r c)).2).2
      let c₂ := (popFrame c₁).2
      (if c₂.aborted then return [] else do
        let rest ← nestedBlocks visit roots
        return ⟨r.loc.start.offset, r.loc.stop.offset, (exitBlock (visit (enterNested r c)).2).1⟩ :: rest
        : Lower (List NestedBlock)) c₂ := rfl

end Lower

/-! ## Steps -/

namespace Lower

theorem textStep_exits (visit : Lower Unit) (c : Context) : (textStep visit c).1 = [] := rfl

theorem childrenStep_exits (visit : Lower Unit) (c : Context) : (childrenStep visit c).1 = [] := by
  rw [childrenStep, run_bind]
  cases (node c).1 with
  | none => rfl
  | some v =>
    dsimp only
    cases v.isTextLike with
    | true => rfl
    | false =>
      simp only [Bool.false_eq_true, if_false, run_bind, run_ite]
      split <;> rfl

theorem childrenStep_of_isTextLike (visit : Lower Unit)
    (h : ∀ v, c.frame.node = some v → v.isTextLike = true) : (childrenStep visit c).2 = c := by
  rw [childrenStep, run_bind, run_node]
  cases hv : c.frame.node with
  | none => rfl
  | some v => simp only [h v hv, if_true, run_pure]

/-- At a node the children are visited, and then those that are inserted are put in their places. -/
theorem childrenStep_eq (visit : Lower Unit) {v : Visited} (hv : c.frame.node = some v) :
    ∃ runs, (childrenStep visit c).2 =
        (insertRuns runs (lowerChildren visit v.isFragment 0 v.children c).2).2 ∧
      (runs = [] ∨ v.isFragment = false ∧ runs = insertionRuns 0 [] false
        (lowerChildren visit v.isFragment 0 v.children c).2.frame.plan.children) := by
  cases htext : v.isTextLike with
  | true =>
    refine ⟨[], ?_, Or.inl rfl⟩
    rw [childrenStep_of_isTextLike visit fun w hw => Option.some.inj (hv.symm.trans hw) ▸ htext,
      Visited.children_of_isTextLike htext]
    rfl
  | false =>
    rw [childrenStep, run_bind, node_of_some hv]
    simp only [htext, Bool.false_eq_true, if_false, run_bind]
    split
    · next hgo => exact ⟨_, rfl, Or.inr ⟨by simpa using (Bool.and_eq_true_iff.mp hgo).2, rfl⟩⟩
    · exact ⟨[], rfl, Or.inl rfl⟩

theorem runSteps_cons (step : Lower (List Exit)) (steps : List (Lower (List Exit)))
    (exits : List Exit) (c : Context) :
    runSteps (step :: steps) exits c =
      if (step c).2.aborted || (step c).2.frame.node.isNone then (none, (step c).2)
      else runSteps steps ((step c).1.reverse ++ exits) (step c).2 := by
  have hrun : runSteps (step :: steps) exits c =
      (if (step c).2.aborted || (step c).2.frame.node.isNone then return none
      else runSteps steps ((step c).1.reverse ++ exits) : Lower (Option (List Exit))) (step c).2 := rfl
  rw [hrun, run_ite, run_pure]

theorem runExits_cons (extensions : Extensions) (exit : Exit) (exits : List Exit) (c : Context) :
    runExits extensions (exit :: exits) c =
      if c.aborted then ((), c) else runExits extensions exits (runExit extensions exit c).2 := by
  have hrun : runExits extensions (exit :: exits) c =
      (if c.aborted then return () else do
        runExit extensions exit
        runExits extensions exits : Lower Unit) c := rfl
  rw [hrun, run_ite, run_pure, run_bind]

theorem lowerNode_succ (extensions : Extensions) (depth : Nat) (c : Context) :
    lowerNode extensions (depth + 1) c =
      match (runSteps (steps extensions (lowerNode extensions depth)) [] c).1 with
      | none => ((), (runSteps (steps extensions (lowerNode extensions depth)) [] c).2)
      | some exits => runExits extensions exits
        (runSteps (steps extensions (lowerNode extensions depth)) [] c).2 := by
  rw [lowerNode, run_bind]
  cases (runSteps (steps extensions (lowerNode extensions depth)) [] c).1 <;> rfl

end Lower

end JsxTemplate
