import JsxTemplate.Proofs.Lowering.Making

/-!
# What runs again

An operation is set up to run again only for an expression that may change, and never where all is
rendered only once. There, whatever is made is made once, and no block has operations that run again.

All this is one rule about parts (`onceRule`), which allows every block that is left.
-/

namespace JsxTemplate

variable {rule : PartRule} {p : Part} {c : Context}

/-- Whether the current node is an element that is rendered only once. -/
def Context.startsOnce (c : Context) : Bool :=
  c.frame.node.any fun v => v.tag?.any fun tag => tag.hasDirective ["once"]

/-- Where all is rendered only once, nothing runs again and all is made once. Elsewhere operations run
again for a reason. All pieces of markup are in the table. -/
def onceRule : PartRule where
  allows once bound
    | .block b => once = true → b.effects = []
    | .effect e => once = false ∧ e.Reactive
    | .maker op => once = true → op.once? = some true
    | .template k => k < bound
  ofOnce := by
    intro bound p hp
    cases p with
    | block b => exact fun h => by cases h
    | effect e => cases hp.1
    | maker op => exact fun h => by cases h
    | template k => exact hp
  ofLess := by
    intro once bound bound' p hle hp
    cases p with
    | template k => exact Nat.lt_of_lt_of_le hp hle
    | _ => exact hp
  effect := fun h => ⟨rfl, h⟩
  maker := fun h => h
  template := fun h => h

/-- Whether a rule allows all blocks in which nothing runs again where all is rendered only once. -/
def PartRule.IsOpen (rule : PartRule) : Prop :=
  ∀ once bound b, (once = true → b.effects = []) → rule.allows once bound (.block b)

theorem onceRule_isOpen : onceRule.IsOpen := fun _ _ _ h => h

section

variable {rule : PartRule} {c c' : Context}

theorem Context.length_openEffects (c : Context) : c.openEffects.length = c.saved.length + 1 := by
  simp [Context.openEffects]

theorem Supplies.settle {left : Nat} {held held' : Scale → Nat}
    (h : Supplies rule left c held c' held') (hlen : c.saved.length ≤ c'.saved.length) :
    Supplies rule 0 c held c' held' := by
  refine { h with quiet := fun ho => ?_ }
  obtain ⟨entered, hopen⟩ := h.quiet ho
  have hlengths := congrArg List.length hopen
  simp only [List.length_append, List.length_replicate, Context.length_openEffects] at hlengths
  obtain ⟨more, rfl⟩ : ∃ more, entered = left + more := ⟨entered - left, by omega⟩
  rw [List.replicate_add, List.append_assoc] at hopen
  exact ⟨more, List.append_cancel_left hopen⟩

theorem Supplies.effects_eq_nil {held held' : Scale → Nat} (h : Supplies rule 0 c held c' held')
    (hlen : c.saved.length < c'.saved.length) (ho : c'.frame.once = true) : c'.block.effects = [] := by
  obtain ⟨entered, hopen⟩ := h.quiet (h.once.symm.trans ho)
  have hopen : c'.openEffects = List.replicate entered [] ++ c.openEffects := hopen
  have hlengths := congrArg List.length hopen
  simp only [List.length_append, List.length_replicate, Context.length_openEffects] at hlengths
  obtain ⟨more, rfl⟩ : ∃ more, entered = more + 1 := ⟨entered - 1, by omega⟩
  rw [List.replicate_succ, List.cons_append] at hopen
  exact (List.cons.inj hopen).1

end

namespace Lower

/-! ## What is left to do -/

theorem exitBlock_effects (c : Context) :
    (exitBlock c).1.effects = c.block.effects ∨ (exitBlock c).1.effects = [] := by
  rcases h : c.saved with _ | ⟨s, saved⟩
  · obtain ⟨template, pieces, -, heq⟩ := exitBlock_of_nil h
    rw [heq]
    exact Or.inr rfl
  · obtain ⟨template, pieces, -, heq⟩ := exitBlock_of_saved h
    rw [heq]
    exact Or.inl rfl

theorem PartRule.IsOpen.allows_exitBlock (hrule : rule.IsOpen)
    (hquiet : c.frame.once = true → c.block.effects = []) :
    rule.allows c.frame.once (exitBlock c).2.templates.length (.block (exitBlock c).1) := by
  refine hrule _ _ _ fun ho => ?_
  rcases exitBlock_effects c with h | h
  · exact h.trans (hquiet ho)
  · exact h

theorem Exit.Closes.length_saved {exit : Exit} {inner outer : Stacks} (h : exit.Closes inner outer) :
    exit.isOwn = true ∧ inner.saved.length = outer.saved.length + exit.isClosing.toNat := by
  cases exit with
  | branch id condition =>
    obtain ⟨b, hb, -⟩ := h
    exact ⟨rfl, by rw [hb.saved]; rfl⟩
  | otherwise condition =>
    obtain ⟨b, hb⟩ := h
    exact ⟨rfl, by rw [hb.saved]; rfl⟩
  | loop id head keyProperty component scope
  | componentSlots d pattern firstOther scope | templateSlot d condition otherwise loop head scope =>
    obtain ⟨b, names, hb, -⟩ := h
    exact ⟨rfl, by rw [hb.saved]; rfl⟩
  | reference value | element cursor => exact ⟨rfl, congrArg (fun s => s.saved.length) h⟩
  | added run => exact h.elim

theorem Unwinds.length_saved_le {exits : List Exit} {inner outer : Stacks} (h : Unwinds exits inner outer) :
    outer.saved.length ≤ inner.saved.length := by
  induction exits generalizing inner with
  | nil =>
    obtain rfl : inner = outer := h
    exact Nat.le_refl _
  | cons exit exits ih =>
    obtain ⟨middle, hclose, hrest⟩ := h
    have hlen := (Exit.Closes.length_saved hclose).2
    have hle := ih hrest
    omega

section

variable {rule : PartRule} (hrule : rule.IsOpen)

include hrule

theorem supplies_runExits {exits : List Exit} {c₀ c : Context} (h : Supplies rule 0 c₀ 0 c 0)
    (hu : Unwinds exits c.stacks c₀.stacks) : Supplies rule 0 c₀ 0 (runExits .none exits c).2 0 := by
  induction exits generalizing c with
  | nil => exact h
  | cons exit exits ih =>
    obtain ⟨middle, hclose, hrest⟩ := hu
    have hlen : c.saved.length = middle.saved.length + exit.isClosing.toNat :=
      (Exit.Closes.length_saved hclose).2
    have hle : c₀.saved.length ≤ middle.saved.length := Unwinds.length_saved_le hrest
    rw [runExits_cons]
    split
    · exact h
    · have hcloses : exit.isClosing = true → rule.Closes c := by
        intro hclosing
        rw [hclosing] at hlen
        have hlt : c₀.saved.length < c.saved.length := by
          simp only [Bool.toNat_true] at hlen
          omega
        have hquiet := h.effects_eq_nil hlt
        exact ⟨hquiet, PartRule.IsOpen.allows_exitBlock hrule hquiet⟩
      have hstacks := (stacks_runExit hclose).1
      refine ih ((h.trans (supplies_runExit hclose hcloses)).settle ?_) (hstacks ▸ hrest)
      have hsaved : (runExit .none exit c).2.saved = middle.saved := congrArg Stacks.saved hstacks
      rw [hsaved]
      exact hle

end

/-! ## The walk -/

theorem onceStep_eq (c : Context) : (onceStep c).2 = c.withOnce (c.frame.once || c.startsOnce) := by
  have hother : c.startsOnce = false → c = c.withOnce (c.frame.once || c.startsOnce) := by
    intro h
    rw [h, Bool.or_false]
    rfl
  rw [onceStep, run_bind, run_node]
  rcases hv : c.frame.node with _ | v
  · exact hother (by simp [Context.startsOnce, hv])
  · rcases v with t | ⟨path, n⟩ | ⟨path, tag, children⟩
    · exact hother (by simp [Context.startsOnce, hv, Visited.tag?])
    · cases n with
      | element tag children =>
        have hstarts : c.startsOnce = tag.hasDirective ["once"] := by
          simp [Context.startsOnce, hv, Visited.tag?]
        cases honce : tag.hasDirective ["once"] with
        | true =>
          simp only [honce, if_true, hstarts, Bool.or_true]
          rfl
        | false =>
          simp only [honce, Bool.false_eq_true, if_false]
          exact hother (hstarts.trans honce)
      | _ => exact hother (by simp [Context.startsOnce, hv, Visited.tag?])
    · exact hother (by simp [Context.startsOnce, hv, Visited.tag?])

/-- Whether a visit makes only what a rule allows. The node may be rendered only once. -/
def Visits (rule : PartRule) (visit : Lower Unit) : Prop :=
  ∀ c, ∃ once, (c.frame.once = true → once = true) ∧ Supplies rule 0 (c.withOnce once) 0 (visit c).2 0

section

variable {rule : PartRule} (hrule : rule.IsOpen) {visit : Lower Unit} (hvisit : Visits rule visit)

include hrule hvisit

theorem supplies_nestedBlocks (roots : List Visited) (c : Context) :
    Supplies rule 0 c 0 (nestedBlocks visit roots c).2 (·.nested (nestedBlocks visit roots c).1) ∧
      (nestedBlocks visit roots c).2.frame.plan.id = c.frame.plan.id := by
  induction roots generalizing c with
  | nil => exact ⟨.refl c _, rfl⟩
  | cons r roots ih =>
    obtain ⟨once, hmore, hinner⟩ := hvisit (enterNested r c)
    obtain ⟨hnested, hid⟩ := supplies_nested hinner hmore
      (PartRule.IsOpen.allows_exitBlock hrule (effects_nested hinner))
    rw [nestedBlocks_cons]
    dsimp only
    split
    · exact ⟨hnested.drop, hid⟩
    · obtain ⟨hrest, hid'⟩ := ih (popFrame (exitBlock (visit (enterNested r c)).2).2).2
      exact ⟨hnested.trans (hrest.hold _), hid'.trans hid⟩

omit hrule in
theorem obeys_lowerChildren (isFragment : Bool) (index : Nat) (children : List Visited) :
    Obeys rule (lowerChildren visit isFragment index children) := by
  induction children generalizing index with
  | nil => exact .pure _
  | cons child children ih =>
    intro c
    obtain ⟨once, hmore, hinner⟩ := hvisit (c.enterChild child index)
    have hmore : c.frame.once = true → once = true := hmore
    rw [lowerChildren_cons]
    split
    · exact (supplies_popFrame hmore hinner).1
    · exact (supplies_takeChild hmore isFragment hinner).trans (ih _ _)

theorem obeys_steps {step : Lower (List Exit)} (hstep : step ∈ (steps .none visit).tail) :
    Obeys rule step := by
  simp only [steps, Extensions.none, List.append_nil, List.tail_cons, List.mem_cons, List.not_mem_nil,
    or_false] at hstep
  rcases hstep with rfl | rfl | rfl | rfl | rfl | rfl | rfl
  · exact does_conditionStep.obeys rfl
  · exact does_loopStep.obeys rfl
  · exact does_referenceStep.obeys rfl
  · exact does_elementStep.obeys rfl
  · exact fun c => supplies_textStep (supplies_nestedBlocks hrule hvisit _ _)
  · exact does_slotStep.obeys rfl
  · exact fun c => supplies_childrenStep fun v _ => obeys_lowerChildren hvisit _ _ _ _

end

theorem supplies_lowerNode (hrule : rule.IsOpen) {depth : Nat}
    (hvisit : Visits rule (lowerNode .none depth)) (c : Context) :
    Supplies rule 0 (onceStep c).2 0 (lowerNode .none (depth + 1) c).2 0 := by
  let rest := (steps .none (lowerNode .none depth)).tail
  have hsteps : steps .none (lowerNode .none depth) = onceStep :: rest := rfl
  have hrun := runSteps_cons onceStep rest [] c
  rw [onceStep_exits, List.reverse_nil, List.nil_append, ← hsteps] at hrun
  have hrest := related_runSteps (R := fun c c' => Supplies rule 0 c 0 c' 0) (fun c => .refl c 0)
    (fun h h' => h.trans h') (fun step hstep => obeys_steps hrule hvisit hstep) [] (onceStep c).2
  rw [lowerNode_succ]
  split at hrun
  · rw [hrun]
    exact .refl _ _
  · next hgo =>
    rw [hrun]
    simp only [Bool.or_eq_true, not_or, Bool.not_eq_true, Option.isNone_eq_false_iff] at hgo
    cases hleft : (runSteps rest [] (onceStep c).2).1 with
    | none => exact hrest
    | some exits =>
      cases ha : (runSteps rest [] (onceStep c).2).2.aborted with
      | true =>
        rw [runExits_of_aborted ha]
        exact hrest
      | false =>
        obtain ⟨-, left, hleft', hu⟩ := unwinds_runSteps
          (fun step hstep => opens_steps (balanced_lowerNode depth) (List.mem_of_mem_tail hstep))
          (show Unwinds [] (onceStep c).2.stacks (onceStep c).2.stacks from rfl) hgo.2 ha
        obtain rfl : exits = left := Option.some.inj (hleft.symm.trans hleft')
        exact supplies_runExits hrule hrest hu

theorem visits_lowerNode (hrule : rule.IsOpen) (depth : Nat) : Visits rule (lowerNode .none depth) := by
  induction depth with
  | zero => exact fun c => ⟨c.frame.once, id, .refl c _⟩
  | succ depth ih =>
    intro c
    refine ⟨c.frame.once || c.startsOnce, fun ho => by rw [ho]; rfl, ?_⟩
    have hwalk := supplies_lowerNode hrule ih c
    rw [onceStep_eq] at hwalk
    exact hwalk

end Lower

/-! ## Results -/

theorem Scale.context_ofTemplate (W : Scale) (o : LoweringOptions) (t : Template) :
    W.context (Context.ofTemplate o t) = W.unused 0 := by
  simp [Scale.context, Scale.frame, Context.ofTemplate, Frame.ofNode, Scale.node_empty]

theorem Scale.context_ofParts (w : Part → Nat) (c : Context) :
    (Scale.ofParts w).context c = (c.parts.map w).sum := by
  have hof : ∀ ps ns, (Scale.ofParts w).of ps ns = (ps.map w).sum := by
    intro ps ns
    simp [Scale.of, Scale.ofParts]
  have hsum : ∀ {α : Type} {f : α → Nat} {g : α → List Part}, (∀ a, f a = ((g a).map w).sum) →
      ∀ items : List α, (items.map f).sum = ((items.flatMap g).map w).sum := by
    intro α f g h items
    induction items with
    | nil => rfl
    | cons a items ih => simp [ih, h]
  have hopened : ∀ b, (Scale.ofParts w).opened b = (b.parts.map w).sum := by
    intro b
    simp [Scale.opened, OpenBlock.parts, ← Scale.of_operations, ← Scale.of_effects, hof]
  have hframe : ∀ f, (Scale.ofParts w).frame f = (f.parts.map w).sum := by
    intro f
    simp [Scale.frame, Frame.parts, Scale.node, ← Scale.of_slots, hof]
  have hsaved : ∀ b, (Scale.ofParts w).saved b = (b.parts.map w).sum := by
    intro b
    simp [Scale.saved, SavedBlock.parts, hopened, Scale.node, ← Scale.of_slots, hof]
  have hunused : (Scale.ofParts w).unused c.nextId = 0 := rfl
  simp only [Scale.context, hopened, hframe, hsum hframe, hsum hsaved, hunused, Context.parts, List.map_append,
    List.sum_append, Nat.add_zero]

theorem mem_parts_of_mem_finish (hp : p ∈ c.finish.block.parts) :
    p = .block c.finish.block ∨ p ∈ c.parts := by
  rw [Block.parts_eq] at hp
  refine (List.mem_cons.mp hp).imp id fun hp => ?_
  simp only [Context.finish, OpenBlock.close, List.mem_append] at hp
  simp only [Context.parts, OpenBlock.parts, Frame.parts, List.mem_append]
  tauto

theorem Supplies.allows_of_mem {c c' : Context} (h : Supplies rule 0 c 0 c' 0)
    (hzero : ∀ W : Scale, W.context c = W.unused 0) (hp : p ∈ c'.parts) :
    rule.allows c.frame.once c'.templates.length p := by
  classical
  by_contra hnot
  -- a part that is not allowed weighs one, and all others nothing
  let w : Part → Nat := fun q => if rule.allows c.frame.once c'.templates.length q then 0 else 1
  have hweight := h.weight (.ofParts w) fun q hq => if_pos hq
  rw [hzero, Scale.context_ofParts] at hweight
  have hle := List.single_le_sum (by simp) _ (List.mem_map_of_mem (f := w) hp)
  have hone : w p = 1 := if_neg hnot
  simp only [Scale.ofParts, Pi.zero_apply] at hweight
  omega

theorem allows_of_mem_finish (hrule : rule.IsOpen) (o : LoweringOptions) (t : Template)
    (hp : p ∈ (t.lower o .none).finish.block.parts) (hne : ∀ b, p ≠ .block b) :
    rule.allows false (t.lower o .none).templates.length p := by
  obtain ⟨once, -, hwalk⟩ := Lower.visits_lowerNode hrule t.depth (Context.ofTemplate o t)
  have hwalk : Supplies rule 0 ((Context.ofTemplate o t).withOnce once) 0 (t.lower o .none) 0 := hwalk
  have hmem : p ∈ (t.lower o .none).parts :=
    (mem_parts_of_mem_finish hp).resolve_left fun heq => hne _ heq
  have hallows : rule.allows once _ p := hwalk.allows_of_mem (fun W => W.context_ofTemplate o t) hmem
  cases once with
  | true => exact rule.ofOnce hallows
  | false => exact hallows

/-- Whether a part is something that runs again, or makes something again and again. -/
def Part.isLively : Part → Bool
  | .block b => !b.effects.isEmpty
  | .effect _ => true
  | .maker op => op.once? != some true
  | .template _ => false

theorem onceRule_allows_of_calm {bound : Nat} (h : onceRule.allows true bound p) :
    p.isLively = false := by
  cases p with
  | block b =>
    have hempty : b.effects = [] := h rfl
    simp [Part.isLively, hempty]
  | effect e => cases h.1
  | maker op =>
    have honce : op.once? = some true := h rfl
    simp [Part.isLively, honce]
  | template k => rfl

namespace Lower

theorem visit_once_adds_nothing_lively (h : c.frame.once = true ∨ c.startsOnce = true) (depth : Nat) :
    (((lowerNode .none depth c).2.parts.filter Part.isLively).Subperm (c.parts.filter Part.isLively)) ∧
    ∃ entered, (lowerNode .none depth c).2.openEffects = List.replicate entered [] ++ c.openEffects := by
  cases depth with
  | zero => exact ⟨List.Subperm.refl _, 0, rfl⟩
  | succ depth =>
    have hwalk := supplies_lowerNode onceRule_isOpen (visits_lowerNode onceRule_isOpen depth) c
    have honce : (c.frame.once || c.startsOnce) = true := by simpa using h
    rw [onceStep_eq, honce] at hwalk
    refine ⟨Part.subperm_of_sum_le fun w hw => ?_, hwalk.quiet rfl⟩
    have hweight := hwalk.weight (.ofParts w) fun p hp => hw p (onceRule_allows_of_calm hp)
    simp only [Scale.context_ofParts, Pi.zero_apply, Nat.add_zero] at hweight
    exact hweight

end Lower

/-- All operations that run again do so for an expression that may change, each by itself. Below an
element that is rendered only once, nothing is added that runs again: neither to a block that is open, nor
to one that is made there; and all conditions, loops, components and nodes that are made there are made
once. -/
theorem effects_reactive_and_once_silent :
    (∀ (o : LoweringOptions) (t : Template) (b : Block),
      Part.block b ∈ (t.lower o .none).finish.block.parts → ∀ e ∈ b.effects,
        e.expressions ≠ [] ∧ (∀ x ∈ e.expressions, x.isConstant = false) ∧ ∃ op, e.operations = [op]) ∧
    ∀ (depth : Nat) (c : Context), c.frame.once = true ∨ c.startsOnce = true →
      let c' := (Lower.lowerNode .none depth c).2
      ((c'.parts.filter Part.isLively).Subperm (c.parts.filter Part.isLively)) ∧
      (∃ entered, c'.openEffects = List.replicate entered [] ++ c.openEffects) ∧
      (c'.aborted = false → c'.openEffects = c.openEffects) := by
  refine ⟨fun o t b hb e he => ?_, fun depth c honce => ?_⟩
  · have hmem : Part.effect e ∈ (t.lower o .none).finish.block.parts := by
      refine Block.parts_closed _ b hb ?_
      rw [Block.parts_eq]
      have heffect := Effect.mem_partsOf he
      simp [heffect]
    obtain ⟨-, hreactive⟩ := allows_of_mem_finish onceRule_isOpen o t hmem (by simp)
    exact ⟨hreactive.expressions, hreactive.changing, hreactive.single⟩
  · obtain ⟨hparts, entered, hopen⟩ := Lower.visit_once_adds_nothing_lively honce depth
    refine ⟨hparts, ⟨entered, hopen⟩, fun ha => ?_⟩
    have hsaved := (restored_of_stacks ((Lower.balanced_lowerNode depth).keeps c ha).1).saved
    have hlengths := congrArg List.length hopen
    simp only [List.length_append, List.length_replicate, Context.length_openEffects, hsaved] at hlengths
    obtain rfl : entered = 0 := by omega
    exact hopen

/-- Of two elements with a property that may change, only the one that is not rendered only once is
updated. -/
theorem effects_reactive_and_once_silent_siblings :
    let item := fun name content =>
      TagItem.attribute ⟨name, none, .stub, some ⟨content, false, .stub⟩, .stub⟩
    let o : LoweringOptions := ⟨true, fun _ => false⟩
    let silent : Node := .element ⟨"p", .element, [item "v-once" "", item "id" "x"], true, .stub⟩ []
    let t : Template :=
      ⟨"", [.element ⟨"p", .element, [item "id" "x"], true, .stub⟩ [], silent], .stub⟩
    let b := (t.lower o .none).finish.block
    let c := (Context.ofTemplate o t).enterChild (.node [1] silent) 1
    let c' := (Lower.lowerNode .none 4 c).2
    (b.effects.length = 1 ∧ b.operations.length = 1 ∧ Part.block b ∈ b.parts ∧ ∀ e ∈ b.effects,
      e.expressions ≠ [] ∧ (∀ x ∈ e.expressions, x.isConstant = false) ∧ ∃ op, e.operations = [op]) ∧
    c.startsOnce = true ∧ c'.aborted = false ∧ c'.block.operations.length = 1 ∧
      ((c'.parts.filter Part.isLively).Subperm (c.parts.filter Part.isLively)) ∧
      c'.openEffects = c.openEffects := by
  intro item o silent t b c c'
  have hb : Part.block b ∈ b.parts := by
    rw [Block.parts_eq]
    exact List.mem_cons_self
  have hstarts : c.startsOnce = true := by decide +kernel
  have ha : c'.aborted = false := by decide +kernel
  have hsilent := effects_reactive_and_once_silent.2 4 c (Or.inr hstarts)
  exact ⟨⟨by decide +kernel, by decide +kernel, hb, effects_reactive_and_once_silent.1 o t b hb⟩, hstarts,
    ha, by decide +kernel, hsilent.1, hsilent.2.2 ha⟩

end JsxTemplate
