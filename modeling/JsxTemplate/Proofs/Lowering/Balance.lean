import JsxTemplate.Proofs.Lowering.Walk

/-!
# Blocks are left as they were entered

A step may enter a block and bring variables into scope; what it leaves to do closes them again
(`Exit.Closes`). All that is left to do at a node, the last first, leads back to the state in which the
walk came to the node (`Unwinds`). So a node is left as it was reached, unless the walk stops.
-/

namespace JsxTemplate

/-- The blocks that are open after some events, of which the last comes first. -/
def openBlocks : List Event → List (Path × Bool)
  | [] => []
  | .entered path isLoop :: log => (path, isLoop) :: openBlocks log
  | .left :: log => (openBlocks log).tail
  | .gathered _ :: log => openBlocks log

/-- Whether a block was open whenever one was left. -/
def Orderly (log : List Event) : Prop :=
  ∀ before, (Event.left :: before) <:+ log → openBlocks before ≠ []

section

variable {log : List Event}

theorem orderly_nil : Orderly [] := by
  intro before h
  have hlen := h.length_le
  simp at hlen

theorem orderly_cons {event : Event} (h : event = .left → openBlocks log ≠ []) :
    Orderly (event :: log) ↔ Orderly log := by
  constructor
  · intro ho before hb
    exact ho before (hb.trans (List.suffix_cons _ _))
  · intro ho before hb
    rcases List.suffix_cons_iff.mp hb with heq | hb
    · obtain ⟨hleft, rfl⟩ := List.cons.inj heq
      exact h hleft.symm
    · exact ho before hb

end

/-- What the walk must leave as it was. -/
structure Stacks where
  nodes : List (Option Visited)
  saved : List SavedBlock
  opened : List (Path × Bool)
  orderly : Prop
  loopDepth : Nat
  scope : List String
  discarding : Bool

def Context.stacks (c : Context) : Stacks :=
  { nodes := c.outer.map Frame.node
    saved := c.saved
    opened := openBlocks c.log
    orderly := Orderly c.log
    loopDepth := c.loopDepth
    scope := c.scope
    discarding := c.discarding }

theorem Calm.stacks {c c' : Context} (h : Calm c c') : c'.stacks = c.stacks := by
  simp only [Context.stacks, h.outer, h.saved, h.log, h.loopDepth, h.scope, h.discarding]

/-- Whether all is as it must be left, and the node was not removed. -/
def Kept (c c' : Context) : Prop :=
  c'.stacks = c.stacks ∧ (c.frame.node.isSome = true → c'.frame.node.isSome = true)

theorem Calm.kept {c c' : Context} (h : Calm c c') : Kept c c' := ⟨h.stacks, fun hn => h.node ▸ hn⟩

def Deed.isKept : Deed → Bool
  | .enter | .leave | .discard | .scope => false
  | _ => true

theorem kept_modifyParent {f : Frame → Frame} (h : ∀ frame, (f frame).node = frame.node) (c : Context) :
    Kept c (Lower.modifyParent f c).2 := by
  rw [Lower.modifyParent_run]
  refine ⟨?_, id⟩
  cases houter : c.outer <;> simp [Context.stacks, houter, h]

theorem Deed.Changes.kept {c c' : Context} {d : Deed} (h : Changes c d c') (hd : d.isKept = true) :
    Kept c c' := by
  by_cases hcalm : d.isCalm = true
  · exact (h.calm hcalm).kept
  · cases h with
    | wrap => exact ⟨rfl, fun _ => rfl⟩
    | attach otherwise => exact kept_modifyParent (f := Frame.attachBranch otherwise) (fun _ => rfl) c
    | give slots => exact kept_modifyParent (f := fun p => { p with slots }) (fun _ => rfl) c
    | gather path =>
      refine ⟨?_, id⟩
      have horderly : Orderly (.gathered path :: c.log) = Orderly c.log :=
        propext (orderly_cons (by simp))
      simp only [Context.stacks, openBlocks, horderly]
    | mark | fault => exact ⟨rfl, id⟩
    | enter | leave | discard | scope => cases hd
    | _ => exact absurd rfl hcalm

/-- Whether a block was entered and variables were brought into scope, where `b` is the block that was
put aside. -/
structure Encloses (outer inner : Stacks) (b : SavedBlock) (names : List String) : Prop where
  nodes : inner.nodes = outer.nodes
  saved : inner.saved = b :: outer.saved
  opened : ∃ path, inner.opened = (path, b.isLoop) :: outer.opened
  orderly : inner.orderly = outer.orderly
  loopDepth : inner.loopDepth = if b.isLoop then outer.loopDepth + 1 else outer.loopDepth
  scope : inner.scope = outer.scope ++ names
  discarding : b.discarding = outer.discarding

/-- Whether something that is left to do leads from one state to the other. -/
def Exit.Closes (inner outer : Stacks) : Exit → Prop
  | .branch id _ => ∃ b, Encloses outer inner b [] ∧ b.plan.id = some id
  | .otherwise _ => ∃ b, Encloses outer inner b []
  | .loop id _ _ _ scope =>
    ∃ b names, Encloses outer inner b names ∧ scope = names.length ∧ b.plan.id = some id
  | .componentSlots _ _ _ scope | .templateSlot _ _ _ _ _ scope =>
    ∃ b names, Encloses outer inner b names ∧ scope = names.length
  | .reference _ | .element _ => inner = outer
  | .added _ => False

/-- Whether all that is left to do leads from one state to the other. -/
def Unwinds : List Exit → Stacks → Stacks → Prop
  | [], inner, outer => inner = outer
  | exit :: exits, inner, outer => ∃ middle, exit.Closes inner middle ∧ Unwinds exits middle outer

theorem Unwinds.append {exits exits' : List Exit} {inner middle outer : Stacks}
    (h : Unwinds exits inner middle) (h' : Unwinds exits' middle outer) :
    Unwinds (exits ++ exits') inner outer := by
  induction exits generalizing inner with
  | nil =>
    obtain rfl : inner = middle := h
    exact h'
  | cons exit exits ih =>
    obtain ⟨next, hclose, hrest⟩ := h
    exact ⟨next, hclose, ih hrest⟩

namespace Lower

variable {c : Context} {outer : Stacks} {step : Lower (List Exit)} {names : List String}
  {b : SavedBlock}

/-! ## Actions that keep the stacks -/

def Keeping {α : Type} (x : Lower α) : Prop := ∀ c, Kept c (x c).2

theorem Does.keeping {α : Type} {deeds : List Deed} {x : Lower α} (h : Does deeds x)
    (hd : deeds.all Deed.isKept = true) : Keeping x :=
  h.related (R := Kept) (fun _ => ⟨rfl, id⟩) (fun h h' => ⟨h'.1.trans h.1, h'.2 ∘ h.2⟩)
    fun d hmem _ _ hc => hc.kept (List.all_eq_true.mp hd d hmem)

/-! ## Entering and leaving blocks -/

theorem encloses_enterBlock (loc : Location) (isLoop : Bool) (c : Context) :
    ∃ b, Encloses c.stacks (enterBlock loc isLoop c).2.stacks b [] ∧ b.plan = c.frame.plan := by
  refine ⟨⟨c.block, c.frame.plan, c.frame.template, c.frame.childTemplates, c.frame.slots, isLoop,
    c.discarding⟩, ?_, rfl⟩
  exact
    { nodes := rfl
      saved := rfl
      opened := ⟨_, rfl⟩
      orderly := propext (orderly_cons (by simp))
      loopDepth := rfl
      scope := (List.append_nil _).symm
      discarding := rfl }

theorem encloses_pushScope (h : Encloses outer c.stacks b []) (names : List String) :
    Encloses outer (pushScope names c).2.stacks b names :=
  { h with
    scope := by
      have hscope := h.scope
      rw [List.append_nil] at hscope
      exact congrArg (· ++ names) hscope }

theorem encloses_of_scoped {inner : Stacks} (h : Encloses (pushScope names c).2.stacks inner b []) :
    Encloses c.stacks inner b names :=
  { h with scope := by rw [h.scope, List.append_nil]; rfl }

theorem stacks_exitBlock (h : Encloses outer c.stacks b names) :
    (exitBlock c).2.stacks = { outer with scope := outer.scope ++ names } := by
  obtain ⟨template, pieces, -, hexit⟩ := exitBlock_of_saved h.saved
  obtain ⟨path, hopened⟩ := h.opened
  have hopened : openBlocks c.log = (path, b.isLoop) :: outer.opened := hopened
  have horderly : Orderly (.left :: c.log) = outer.orderly :=
    (propext (orderly_cons (by simp [hopened]))).trans h.orderly
  have hdepth : (if b.isLoop then c.loopDepth - 1 else c.loopDepth) = outer.loopDepth := by
    have hdepth : c.loopDepth = _ := h.loopDepth
    rw [hdepth]
    cases b.isLoop <;> simp
  have hnodes : c.outer.map Frame.node = outer.nodes := h.nodes
  have hscope : c.scope = outer.scope ++ names := h.scope
  rw [hexit]
  simp only [Context.stacks, Context.leave, openBlocks, hopened, List.tail_cons, horderly, hdepth,
    hnodes, hscope, h.discarding]

theorem stacks_popScope (h : c.stacks = { outer with scope := outer.scope ++ names }) :
    (popScope names.length c).2.stacks = outer := by
  have hscope : c.scope = outer.scope ++ names := congrArg Stacks.scope h
  have hrest : (popScope names.length c).2.stacks =
      { c.stacks with scope := c.scope.take (c.scope.length - names.length) } := rfl
  rw [hrest, h, hscope]
  simp

/-! ## Steps -/

/-- Whether what a step leaves to do leads back to the state before it, unless the walk stops. -/
structure Opens (step : Lower (List Exit)) : Prop where
  node : ∀ c, (step c).2.aborted = false → c.frame.node.isSome = true →
    (step c).2.frame.node.isSome = true
  unwinds : ∀ c, (step c).2.aborted = false → Unwinds (step c).1.reverse (step c).2.stacks c.stacks

namespace Opens

theorem nothing : Opens (Pure.pure []) := ⟨fun _ _ h => h, fun _ _ => rfl⟩

theorem bind {α : Type} {x : Lower α} {f : α → Lower (List Exit)} (hx : Keeping x)
    (hf : ∀ a, Opens (f a)) : Opens (x >>= f) where
  node := fun c ha hn => (hf _).node _ ha ((hx c).2 hn)
  unwinds := fun c ha => (hx c).1 ▸ (hf _).unwinds (x c).2 ha

theorem stepwise : Stepwise [.mark, .flags, .report, .fault, .object] Opens where
  nothing := nothing
  bind := fun hx hd => bind (hx.keeping (List.all_eq_true.mpr fun d hmem => by
    have hsmall := List.all_eq_true.mp hd d hmem
    cases d with
    | enter | leave | discard | scope => cases hsmall
    | _ => rfl))

theorem single (exit : Context → Exit) (hstep : ∀ c, (step c).1 = [exit c])
    (hnode : ∀ c, c.frame.node.isSome = true → (step c).2.frame.node.isSome = true)
    (hclose : ∀ c, (exit c).Closes (step c).2.stacks c.stacks) : Opens step where
  node := fun c _ => hnode c
  unwinds := by
    intro c _
    rw [hstep]
    exact ⟨_, hclose c, rfl⟩

end Opens

theorem opens_onceStep : Opens onceStep where
  node := fun c _ => (does_onceStep.keeping rfl c).2
  unwinds := by
    intro c _
    rw [onceStep_exits]
    exact (does_onceStep.keeping rfl c).1

theorem encloses_enterBranch (path : Path) (tag : Tag) (children : List Node) (c : Context) :
    (∃ b, Encloses c.stacks (enterBranch path tag children c).2.stacks b [] ∧
      b.plan = c.frame.plan) ∧
    (c.frame.node.isSome = true → (enterBranch path tag children c).2.frame.node.isSome = true) := by
  have hrest : ∀ c : Context, (∃ b, Encloses c.stacks
      (reference (enterBlock tag.loc false c).2).2.stacks b [] ∧ b.plan = c.frame.plan) ∧
      (c.frame.node.isSome = true →
        (reference (enterBlock tag.loc false c).2).2.frame.node.isSome = true) := by
    intro c
    obtain ⟨b, hb, hplan⟩ := encloses_enterBlock tag.loc false c
    obtain ⟨hstacks, hnode⟩ := (does_reference.keeping rfl) (enterBlock tag.loc false c).2
    exact ⟨⟨b, hstacks ▸ hb, hplan⟩, hnode⟩
  by_cases ht : (tag.type != .template) = true
  · have hrun : enterBranch path tag children c =
        ((), (reference (enterBlock tag.loc false (replaceNode (.wrapped path tag children) c).2).2).2) := by
      simp only [enterBranch, ht, if_true]
      rfl
    obtain ⟨hb, hnode⟩ := hrest (replaceNode (.wrapped path tag children) c).2
    rw [hrun]
    exact ⟨hb, fun _ => hnode rfl⟩
  · have hrun : enterBranch path tag children c =
        ((), (reference (enterBlock tag.loc false c).2).2) := by
      simp only [enterBranch, ht, Bool.false_eq_true, if_false]
      rfl
    rw [hrun]
    exact hrest c

theorem opens_enterFirstBranch (path : Path) (tag : Tag) (children : List Node)
    (condition : Expression) : Opens (enterFirstBranch path tag children condition) := by
  refine .bind ((does_flags fun _ => rfl).keeping rfl) fun _ => .single (fun c => .branch (reference c).1 condition)
    (fun _ => rfl) (fun c hn => ?_) fun c => ?_
  all_goals
    obtain ⟨hstacks, hnode⟩ := does_reference.keeping rfl c
    obtain ⟨⟨b, hb, hplan⟩, hsome⟩ := encloses_enterBranch path tag children
      (modifyPlan (fun p => { p with insert := true }) (reference c).2).2
  · exact hsome (hnode hn)
  · refine ⟨b, hstacks ▸ hb, ?_⟩
    rw [hplan]
    exact reference_id c

theorem opens_conditionStep : Opens conditionStep := by
  refine (Opens.stepwise.mono rfl).conditionStep opens_enterFirstBranch fun path tag children condition =>
    .single (fun _ => .otherwise condition) (fun _ => rfl) (fun c hn => ?_) fun c => ?_
  all_goals obtain ⟨⟨b, hb, -⟩, hsome⟩ := encloses_enterBranch path tag children c
  · exact hsome hn
  · exact ⟨b, hb⟩

theorem opens_enterLoop (path : Path) (tag : Tag) (children : List Node) (head : LoopHead) :
    Opens (enterLoop path tag children head) := by
  refine .bind ((does_wrap _ _ _).keeping rfl) fun _ => .bind ((does_flags fun _ => rfl).keeping rfl) fun _ => ?_
  refine .single (fun c => .loop (reference c).1 head ((tag.find? "key").bind Attribute.value)
    (rendersComponent tag children) head.names.length) (fun _ => rfl) (fun c hn => ?_) fun c => ?_
  all_goals
    obtain ⟨hstacks, hnode⟩ := (does_reference.keeping rfl) c
    obtain ⟨b, hb, hplan⟩ := encloses_enterBlock tag.loc true (reference c).2
    obtain ⟨hstacks', hnode'⟩ := (does_reference.keeping rfl) (enterBlock tag.loc true (reference c).2).2
  · exact hnode' (hnode hn)
  · refine ⟨b, head.names, hstacks ▸ encloses_pushScope (hstacks' ▸ hb) _, rfl, ?_⟩
    rw [hplan]
    exact reference_id c

theorem opens_loopStep : Opens loopStep := (Opens.stepwise.mono rfl).loopStep opens_enterLoop

theorem opens_referenceStep : Opens referenceStep := by
  refine .bind (does_node.keeping rfl) fun v => ?_
  split
  · split
    · exact .nothing
    · next value _ =>
      exact .single (fun _ => .reference value) (fun _ => rfl) (fun _ hn => hn) fun _ => rfl
  · exact .nothing

theorem opens_elementStep : Opens elementStep :=
  .single (fun c => .element ⟨some c.block.effects.length, some c.block.operations.length⟩)
    (fun _ => rfl) (fun _ hn => hn) fun _ => rfl

theorem opens_enterComponentSlots (tag : Tag) (children : List Node) (d : Option Directive) :
    Opens (enterComponentSlots tag children d) := by
  let names := slotVariables (d.bind Directive.exp)
  have hrun : ∀ c, ∃ discarding, enterComponentSlots tag children d c =
      ([.componentSlots d (d.bind Directive.exp) ((children.find? fun c => !isSlotChild c).map Node.loc)
        names.length], { (enterBlock tag.loc false (pushScope names c).2).2 with discarding }) := by
    intro c
    simp only [enterComponentSlots, run_bind, run_ite]
    split
    · exact ⟨true, rfl⟩
    · exact ⟨false, rfl⟩
  refine .single (fun c => (enterComponentSlots tag children d c).1.headD (.element .atEnd))
    (fun c => ?_) (fun c hn => ?_) fun c => ?_
  all_goals obtain ⟨discarding, hrun⟩ := hrun c
  · rw [hrun]
    rfl
  · rw [hrun]
    exact hn
  · obtain ⟨b, hb, -⟩ := encloses_enterBlock tag.loc false (pushScope names c).2
    rw [hrun]
    exact ⟨b, names, { encloses_of_scoped hb with }, rfl⟩

theorem opens_enterTemplateSlot (tag : Tag) (d : Directive) : Opens (enterTemplateSlot tag d) := by
  refine .bind ((does_flags fun _ => rfl).keeping rfl) fun _ => .bind ((tells_slotHead _).keeping rfl)
    fun head => ?_
  let names := slotVariables d.exp ++ head.toList.flatMap LoopHead.names
  refine .single (fun _ => .templateSlot d (tag.directive? "if")
    ((tag.directive? "else-if").or (tag.directive? "else")) (tag.directive? "for") head names.length)
    (fun _ => rfl) (fun _ hn => hn) fun c => ?_
  obtain ⟨b, hb, -⟩ := encloses_enterBlock tag.loc false (pushScope names c).2
  exact ⟨b, names, encloses_of_scoped hb, rfl⟩

theorem opens_slotStep : Opens slotStep :=
  (Opens.stepwise.mono rfl).slotStep opens_enterComponentSlots opens_enterTemplateSlot

/-! ## What is left to do -/

theorem stacks_runExit {exit : Exit} (h : exit.Closes c.stacks outer) :
    (runExit .none exit c).2.stacks = outer ∧
      (c.frame.node.isSome = true → (runExit .none exit c).2.frame.node.isSome = true) := by
  have hnode : (exitBlock c).2.frame.node = c.frame.node := exitBlock_node c
  cases exit with
  | branch id condition =>
    obtain ⟨b, hb, -⟩ := h
    have hleave := stacks_exitBlock hb
    rw [List.append_nil] at hleave
    exact ⟨hleave, fun hn => hnode ▸ hn⟩
  | otherwise condition =>
    obtain ⟨b, hb⟩ := h
    have hleave := stacks_exitBlock hb
    rw [List.append_nil] at hleave
    obtain ⟨hstacks, hkeep⟩ := (does_attach fun id => Otherwise.ofBranch id condition (exitBlock c).1
      (c.frame.once || condition.any Expression.isConstant)).keeping rfl (exitBlock c).2
    exact ⟨hstacks.trans hleave, fun hn => hkeep (hnode ▸ hn)⟩
  | loop id head keyProperty component scope =>
    obtain ⟨b, names, hb, rfl, -⟩ := h
    obtain ⟨hstacks, hkeep⟩ := (does_setLoop id head keyProperty component (exitBlock c).1).keeping rfl
      (popScope names.length (exitBlock c).2).2
    exact ⟨hstacks.trans (stacks_popScope (stacks_exitBlock hb)), fun hn => hkeep (hnode ▸ hn)⟩
  | reference value =>
    obtain ⟨hstacks, hkeep⟩ := ((does_exitReference value).keeping rfl) c
    exact ⟨hstacks.trans h, hkeep⟩
  | element cursor =>
    obtain ⟨hstacks, hkeep⟩ := (does_exitElement cursor).keeping rfl c
    exact ⟨hstacks.trans h, hkeep⟩
  | componentSlots d pattern firstOther scope =>
    obtain ⟨b, names, hb, rfl⟩ := h
    rw [← ((does_takeSlots.keeping rfl) c).1] at hb
    obtain ⟨hstacks, hkeep⟩ := (tells_setComponentSlots d pattern firstOther (takeSlots c).1
      (exitBlock (takeSlots c).2).1).keeping rfl (popScope names.length (exitBlock (takeSlots c).2).2).2
    have hnode : (exitBlock (takeSlots c).2).2.frame.node = c.frame.node := exitBlock_node _
    exact ⟨hstacks.trans (stacks_popScope (stacks_exitBlock hb)), fun hn => hkeep (hnode ▸ hn)⟩
  | templateSlot d condition otherwise loop head scope =>
    obtain ⟨b, names, hb, rfl⟩ := h
    obtain ⟨hstacks, hkeep⟩ := (tells_setTemplateSlot d condition otherwise loop head (exitBlock c).1).keeping
      rfl (popScope names.length (exitBlock c).2).2
    exact ⟨hstacks.trans (stacks_popScope (stacks_exitBlock hb)), fun hn => hkeep (hnode ▸ hn)⟩
  | added run => exact h.elim

/-! ## The walk -/

/-- Whether an action leaves all as it must be left, unless the walk stops. -/
structure Balanced {α : Type} (x : Lower α) : Prop where
  grows : Growing x
  keeps : ∀ c, (x c).2.aborted = false → (x c).2.stacks = c.stacks ∧
    (c.frame.node.isSome = true → (x c).2.frame.node.isSome = true)

structure Fixed {α : Type} (x : Lower α) : Prop where
  grows : Growing x
  node : ∀ c, (x c).2.aborted = false → (x c).2.frame.node = c.frame.node
  kept : ∀ c, (x c).2.aborted = false → (x c).2.stacks = c.stacks

namespace Fixed

variable {α β : Type}

theorem bind {x : Lower α} {f : α → Lower β} (hx : Fixed x) (hf : ∀ a, Fixed (f a)) :
    Fixed (x >>= f) where
  grows := hx.grows.bind fun a => (hf a).grows
  node := by
    intro c ha
    have hfirst := hx.node c (((hf _).grows _).goesOn ha)
    exact ((hf _).node _ ha).trans hfirst
  kept := by
    intro c ha
    have hfirst := hx.kept c (((hf _).grows _).goesOn ha)
    exact ((hf _).kept _ ha).trans hfirst

theorem compositional : Compositional Fixed where
  calm := fun h hd => ⟨h.grows, fun c _ => (h.calm hd c).node, fun c _ => (h.calm hd c).stacks⟩
  bind := .bind

theorem opens (h : Fixed step) (hexits : ∀ c, (step c).1 = []) :
    Opens step where
  node := by
    intro c ha hn
    rw [h.node c ha]
    exact hn
  unwinds := by
    intro c ha
    rw [hexits]
    exact h.kept c ha

end Fixed

theorem stacks_popFrame {c c' : Context} {v : Visited} {index : Nat}
    (h : c'.stacks = (c.enterChild v index).stacks) :
    (popFrame c').2.stacks = c.stacks ∧ (popFrame c').2.frame.node = c.frame.node := by
  have hnodes : c'.outer.map Frame.node = c.frame.node :: c.outer.map Frame.node :=
    congrArg Stacks.nodes h
  obtain ⟨parent, outer, houter, hparent, hrest⟩ := List.map_eq_cons_iff.mp hnodes
  rw [popFrame_of_cons houter]
  refine ⟨?_, hparent⟩
  have hstacks : c.stacks = { c'.stacks with nodes := c.outer.map Frame.node } := by
    rw [h]
    rfl
  rw [hstacks, ← hrest]
  rfl

theorem stacks_takeChild {c c' : Context} {v : Visited} {index : Nat} (isFragment : Bool)
    (h : c'.stacks = (c.enterChild v index).stacks) :
    (takeChild isFragment c').2.stacks = c.stacks ∧
      (takeChild isFragment c').2.frame.node = c.frame.node := by
  cases isFragment with
  | false => exact stacks_popFrame h
  | true => exact stacks_popFrame (((does_addToBlock.keeping rfl) c').1.trans h)

section

variable {visit : Lower Unit} (hvisit : Balanced visit)

include hvisit

theorem fixed_nestedBlocks (roots : List Visited) : Fixed (nestedBlocks visit roots) := by
  have hkeeps : ∀ c, (nestedBlocks visit roots c).2.aborted = false →
      (nestedBlocks visit roots c).2.stacks = c.stacks ∧
        (nestedBlocks visit roots c).2.frame.node = c.frame.node := by
    induction roots with
    | nil => exact fun c _ => ⟨rfl, rfl⟩
    | cons r roots ih =>
      intro c
      obtain ⟨b, hb, -⟩ := encloses_enterBlock r.loc false (c.enterChild r 0)
      rw [nestedBlocks_cons]
      dsimp only
      split
      · next hstop =>
        intro ha
        exact absurd hstop (by simpa using ha)
      · next hgo =>
        intro ha
        have hgo := eq_false_of_ne_true hgo
        rw [popFrame_aborted, exitBlock_aborted] at hgo
        have hinner := (hvisit.keeps (enterNested r c) hgo).1
        have hleave := stacks_exitBlock (hinner ▸ hb)
        rw [List.append_nil] at hleave
        obtain ⟨hstacks, hnode⟩ := stacks_popFrame hleave
        obtain ⟨hstacks', hnode'⟩ := ih _ ha
        exact ⟨hstacks'.trans hstacks, hnode'.trans hnode⟩
  exact ⟨growing_nestedBlocks hvisit.grows roots, fun c ha => (hkeeps c ha).2,
    fun c ha => (hkeeps c ha).1⟩

theorem fixed_lowerChildren (isFragment : Bool) (index : Nat) (children : List Visited) :
    Fixed (lowerChildren visit isFragment index children) := by
  have hkeeps : ∀ c, (lowerChildren visit isFragment index children c).2.aborted = false →
      (lowerChildren visit isFragment index children c).2.stacks = c.stacks ∧
        (lowerChildren visit isFragment index children c).2.frame.node = c.frame.node := by
    induction children generalizing index with
    | nil => exact fun c _ => ⟨rfl, rfl⟩
    | cons child children ih =>
      intro c
      rw [lowerChildren_cons]
      split
      · next hstop =>
        intro ha
        rw [run_bind, run_pure, popFrame_aborted] at ha
        exact absurd hstop (by simpa using ha)
      · next hgo =>
        intro ha
        have hinner := (hvisit.keeps (c.enterChild child index) (eq_false_of_ne_true hgo)).1
        obtain ⟨hstacks, hnode⟩ := stacks_takeChild isFragment hinner
        obtain ⟨hstacks', hnode'⟩ := ih _ _ ha
        exact ⟨hstacks'.trans hstacks, hnode'.trans hnode⟩
  exact ⟨growing_lowerChildren hvisit.grows isFragment index children, fun c ha => (hkeeps c ha).2,
    fun c ha => (hkeeps c ha).1⟩

theorem fixed_textStep : Fixed (textStep visit) :=
  Fixed.compositional.textStep (fixed_nestedBlocks hvisit)

theorem fixed_childrenStep : Fixed (childrenStep visit) :=
  Fixed.compositional.childrenStep (fixed_lowerChildren hvisit)

theorem opens_steps (hstep : step ∈ steps .none visit) : Opens step := by
  simp only [steps, Extensions.none, List.append_nil, List.mem_cons, List.not_mem_nil, or_false] at hstep
  rcases hstep with rfl | rfl | rfl | rfl | rfl | rfl | rfl | rfl
  · exact opens_onceStep
  · exact opens_conditionStep
  · exact opens_loopStep
  · exact opens_referenceStep
  · exact opens_elementStep
  · exact (fixed_textStep hvisit).opens (textStep_exits visit)
  · exact opens_slotStep
  · exact (fixed_childrenStep hvisit).opens (childrenStep_exits visit)

end

theorem unwinds_runSteps {steps : List (Lower (List Exit))} (h : ∀ step ∈ steps, Opens step)
    {exits : List Exit} (hu : Unwinds exits c.stacks outer) (hnode : c.frame.node.isSome = true)
    (ha : (runSteps steps exits c).2.aborted = false) :
    (runSteps steps exits c).2.frame.node.isSome = true ∧
      ∃ left, (runSteps steps exits c).1 = some left ∧
        Unwinds left (runSteps steps exits c).2.stacks outer := by
  induction steps generalizing exits c with
  | nil => exact ⟨hnode, exits, rfl, hu⟩
  | cons step steps ih =>
    have hopens := h step List.mem_cons_self
    rw [runSteps_cons] at ha ⊢
    split at ha
    · next hstop =>
      have hsome := hopens.node c ha hnode
      rw [ha, Bool.false_or, Option.isNone_iff_eq_none] at hstop
      simp [hstop] at hsome
    · next hgo =>
      rw [if_neg hgo]
      simp only [Bool.or_eq_true, not_or, Bool.not_eq_true, Option.isNone_eq_false_iff] at hgo
      exact ih (fun s hs => h s (List.mem_cons_of_mem _ hs))
        ((hopens.unwinds c hgo.1).append hu) hgo.2 ha

theorem stacks_runExits {exits : List Exit} (hu : Unwinds exits c.stacks outer)
    (ha : (runExits .none exits c).2.aborted = false) :
    (runExits .none exits c).2.stacks = outer ∧
      (c.frame.node.isSome = true → (runExits .none exits c).2.frame.node.isSome = true) := by
  induction exits generalizing c with
  | nil => exact ⟨hu, id⟩
  | cons exit exits ih =>
    obtain ⟨middle, hclose, hrest⟩ := hu
    obtain ⟨hstacks, hnode⟩ := stacks_runExit hclose
    rw [runExits_cons] at ha ⊢
    split at ha
    · next hstop => exact absurd hstop (by simpa using ha)
    · next hgo =>
      rw [if_neg hgo]
      obtain ⟨hstacks', hnode'⟩ := ih (hstacks ▸ hrest) ha
      exact ⟨hstacks', fun hn => hnode' (hnode hn)⟩

theorem lowerNode_of_none (h : c.frame.node = none) (depth : Nat) :
    lowerNode .none depth c = ((), c) := by
  cases depth with
  | zero => rfl
  | succ depth =>
    have hstep : onceStep c = ([], c) := by
      simp only [onceStep, run_bind, node, run_get, run_pure, h]
    have hrun : runSteps (steps .none (lowerNode .none depth)) [] c = (none, c) := by
      rw [steps, List.cons_append, runSteps_cons, hstep]
      simp [h]
    rw [lowerNode_succ, hrun]

theorem balanced_lowerNode (depth : Nat) : Balanced (lowerNode .none depth) := by
  induction depth with
  | zero => exact ⟨.pure _, fun c _ => ⟨rfl, id⟩⟩
  | succ depth ih =>
    refine ⟨growing_lowerNode (depth + 1), fun c => ?_⟩
    cases hnode : c.frame.node with
    | none =>
      intro _
      rw [lowerNode_of_none hnode, hnode]
      exact ⟨rfl, id⟩
    | some v =>
      have hsome : c.frame.node.isSome = true := by rw [hnode]; rfl
      have hunwinds := unwinds_runSteps (fun step hstep => opens_steps ih hstep)
        (show Unwinds [] c.stacks c.stacks from rfl) hsome
      rw [lowerNode_succ]
      cases hrun : (runSteps (steps .none (lowerNode .none depth)) [] c).1 with
      | none =>
        intro ha
        obtain ⟨-, left, hleft, -⟩ := hunwinds ha
        rw [hrun] at hleft
        cases hleft
      | some exits =>
        intro ha
        have hown := own_runSteps (fun step hstep c => own_steps hstep c) (by simp) hrun
        obtain ⟨hstill, left, hleft, hu⟩ := hunwinds ((growing_runExits hown _).goesOn ha)
        obtain rfl : exits = left := Option.some.inj (hrun.symm.trans hleft)
        obtain ⟨hstacks, hkeep⟩ := stacks_runExits hu ha
        exact ⟨hstacks, fun _ => hkeep hstill⟩

end Lower

structure Restored (c c' : Context) : Prop where
  height : c'.outer.length = c.outer.length
  saved : c'.saved = c.saved
  loopDepth : c'.loopDepth = c.loopDepth
  scope : c'.scope = c.scope
  discarding : c'.discarding = c.discarding

theorem restored_of_stacks {c c' : Context} (h : c'.stacks = c.stacks) : Restored c c' where
  height := by
    have hnodes : c'.outer.map Frame.node = c.outer.map Frame.node := congrArg Stacks.nodes h
    simpa using congrArg List.length hnodes
  saved := congrArg Stacks.saved h
  loopDepth := congrArg Stacks.loopDepth h
  scope := congrArg Stacks.scope h
  discarding := congrArg Stacks.discarding h

/-- If mistakes are collected, every node is left as the walk came to it. So no block is left while none
is open, and none is open in the end. -/
theorem walk_restores_stacks :
    (∀ (depth : Nat) (c : Context), c.options.collectErrors = true → c.aborted = false →
      Restored c (Lower.lowerNode .none depth c).2) ∧
    ∀ (o : LoweringOptions) (t : Template), o.collectErrors = true →
      Orderly (t.lower o .none).log ∧ openBlocks (t.lower o .none).log = [] ∧
        (t.lower o .none).saved = [] := by
  have hkeeps : ∀ (depth : Nat) (c : Context), c.options.collectErrors = true → c.aborted = false →
      (Lower.lowerNode .none depth c).2.stacks = c.stacks := fun depth c hc ha =>
    ((Lower.balanced_lowerNode depth).keeps c ((Lower.growing_lowerNode depth c).collects hc ha)).1
  refine ⟨fun depth c hc ha => restored_of_stacks (hkeeps depth c hc ha), fun o t hc => ?_⟩
  have hstacks : (t.lower o .none).stacks = _ := hkeeps t.depth (Context.ofTemplate o t) hc rfl
  have horderly : Orderly (t.lower o .none).log = Orderly [] := congrArg Stacks.orderly hstacks
  exact ⟨horderly ▸ orderly_nil, congrArg Stacks.opened hstacks, congrArg Stacks.saved hstacks⟩

/-- The walk over an element with a condition and a loop. -/
theorem walk_restores_stacks_nested :
    let item := fun name content =>
      TagItem.attribute ⟨name, none, .stub, some ⟨content, false, .stub⟩, .stub⟩
    let o : LoweringOptions := ⟨true, fun _ => false⟩
    let t : Template :=
      ⟨"", [.element ⟨"p", .element, [item "v-if" "a", item "v-for" "b in c"], true, .stub⟩ []],
        .stub⟩
    o.collectErrors = true ∧ Restored (Context.ofTemplate o t) (t.lower o .none) ∧
      Orderly (t.lower o .none).log ∧ openBlocks (t.lower o .none).log = [] ∧
        (t.lower o .none).saved = [] :=
  ⟨rfl, walk_restores_stacks.1 _ _ rfl rfl, walk_restores_stacks.2 _ _ rfl⟩

end JsxTemplate
