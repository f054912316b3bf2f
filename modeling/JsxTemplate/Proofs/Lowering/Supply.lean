import JsxTemplate.Proofs.Lowering.Balance
import JsxTemplate.Proofs.Plan.Scale

/-!
# Where parts and nodes of a plan come from

The parts and nodes in the state of the walk stand in the current block, in the frames, and in the blocks that
were put aside. A rule says which parts may be made (`PartRule`). An action moves and drops parts, and makes
only parts that the rule allows. It makes no node twice, and gives a node only a number that is new
(`Supplies`). What an action takes or gives back, such as a finished block, is held in between.

To count, all is weighed: nothing is lost if the state is no heavier than before, whatever the parts weigh
that are not allowed.
-/

namespace JsxTemplate

def OpenBlock.parts (b : OpenBlock) : List Part :=
  Operation.partsOf b.operations ++ Effect.partsOf b.effects

def Frame.parts (f : Frame) : List Part := f.plan.parts ++ SlotGroup.partsOf f.slots

def SavedBlock.parts (b : SavedBlock) : List Part :=
  b.block.parts ++ (b.plan.parts ++ SlotGroup.partsOf b.slots)

def Context.parts (c : Context) : List Part :=
  c.block.parts ++ (c.frame.parts ++
    (c.outer.flatMap Frame.parts ++ c.saved.flatMap SavedBlock.parts))

/-- Whether operations run again for a reason: an expression may change, and nothing else is listed. What
runs again makes no nodes. -/
structure Effect.Reactive (e : Effect) : Prop where
  expressions : e.expressions ≠ []
  changing : ∀ x ∈ e.expressions, x.isConstant = false
  single : ∃ op, e.operations = [op]
  bare : ∀ op ∈ e.operations, op.parts = []
  undelegated : ∀ l, .setEvent l ∈ e.operations → l.delegate = false

/-! ## The weight of the state -/

namespace Scale

variable (W : Scale)

def opened (b : OpenBlock) : Nat := (b.operations.map W.operation).sum + (b.effects.map W.effect).sum

def frame (f : Frame) : Nat := W.node f.plan + W.slots f.slots

def saved (s : SavedBlock) : Nat := W.opened s.block + (W.node s.plan + W.slots s.slots)

def context (c : Context) : Nat :=
  W.opened c.block + (W.frame c.frame + ((c.outer.map W.frame).sum + (c.saved.map W.saved).sum)) +
    W.unused c.nextId

@[simp] theorem slots_nil : W.slots [] = 0 := rfl

theorem slots_append (groups groups' : List SlotGroup) :
    W.slots (groups ++ groups') = W.slots groups + W.slots groups' := by
  simp [slots]

@[simp] theorem opened_empty (loc : Location) : W.opened (.empty loc) = 0 := rfl

end Scale

/-! ## Pieces of markup -/

/-- Whether pieces of markup were only added, none of them twice or empty. -/
structure Table (c c' : Context) : Prop where
  kept : c.templates <+: c'.templates
  distinct : c.templates.Nodup → c'.templates.Nodup
  filled : ∀ s ∈ c'.templates, s ∈ c.templates ∨ s ≠ ""
  roots : ∀ k ∈ c'.rootTemplates, k ∈ c.rootTemplates ∨ k < c'.templates.length

namespace Table

variable {c c' c'' : Context}

theorem same (h : c'.templates = c.templates) (hr : c'.rootTemplates = c.rootTemplates) :
    Table c c' where
  kept := h ▸ List.prefix_refl _
  distinct := fun hd => h ▸ hd
  filled := fun _ hs => Or.inl (h ▸ hs)
  roots := fun _ hk => Or.inl (hr ▸ hk)

theorem trans (h : Table c c') (h' : Table c' c'') : Table c c'' where
  kept := h.kept.trans h'.kept
  distinct := fun hd => h'.distinct (h.distinct hd)
  filled := fun s hs => (h'.filled s hs).elim (h.filled s) Or.inr
  roots := by
    intro k hk
    have hlen := h'.kept.length_le
    rcases h'.roots k hk with hk | hk
    · exact (h.roots k hk).imp_right fun hk => by omega
    · exact Or.inr hk

theorem length_le (h : Table c c') : c.templates.length ≤ c'.templates.length := h.kept.length_le

end Table

/-! ## Rules -/

/-- A rule about the parts that may be made. It is given whether all is rendered only once, and how many
pieces of markup there are. -/
structure PartRule where
  allows : Bool → Nat → Part → Prop
  ofOnce : ∀ {bound p}, allows true bound p → allows false bound p
  ofLess : ∀ {once bound bound' p}, bound ≤ bound' → allows once bound p → allows once bound' p
  effect : ∀ {bound e}, e.Reactive → allows false bound (.effect e)
  maker : ∀ {once bound op}, (once = true → op.once? = some true) → allows once bound (.maker op)
  template : ∀ {once bound k}, k < bound → allows once bound (.template k)

/-- The operations that run again in the blocks that are being filled, the innermost block first. -/
def Context.openEffects (c : Context) : List (List Effect) :=
  c.block.effects :: c.saved.map fun s => s.block.effects

/-- The state in which the current node is rendered only once, or not. -/
def Context.withOnce (c : Context) (once : Bool) : Context :=
  { c with frame := { c.frame with once } }

/-- What is kept of the nodes around the current one. -/
def Frame.standing (f : Frame) : Bool × Option Nat := (f.once, f.plan.id)

/-- Whether parts and nodes were only moved, dropped, or made as a rule allows it, and all numbers that were
given are new. What weighs `held` is held before, and what weighs `held'` after. Where all is rendered only
once, no operation was added to an open block that runs again: the blocks that were left, `left` in number,
and those that were entered have none. -/
structure Supplies (rule : PartRule) (left : Nat) (c : Context) (held : Scale → Nat) (c' : Context)
    (held' : Scale → Nat) : Prop where
  once : c'.frame.once = c.frame.once
  around : c'.outer.map Frame.standing = c.outer.map Frame.standing
  table : Table c c'
  quiet : c.frame.once = true → ∃ entered,
    List.replicate left [] ++ c'.openEffects = List.replicate entered [] ++ c.openEffects
  weight : ∀ W : Scale, (∀ p, rule.allows c.frame.once c'.templates.length p → W.part p = 0) →
    W.context c' + held' W ≤ W.context c + held W

namespace Supplies

variable {rule : PartRule} {left left' : Nat} {c c' c'' : Context} {held held' held'' : Scale → Nat}

theorem ofMoves (honce : c'.frame.once = c.frame.once)
    (haround : c'.outer.map Frame.standing = c.outer.map Frame.standing)
    (htable : c'.templates = c.templates ∧ c'.rootTemplates = c.rootTemplates)
    (hopen : c'.openEffects = c.openEffects)
    (h : ∀ W : Scale, W.context c' + held' W ≤ W.context c + held W) : Supplies rule 0 c held c' held' :=
  ⟨honce, haround, .same htable.1 htable.2, fun _ => ⟨0, hopen⟩, fun W _ => h W⟩

theorem refl (c : Context) (held : Scale → Nat) : Supplies rule 0 c held c held :=
  .ofMoves rfl rfl ⟨rfl, rfl⟩ rfl fun _ => Nat.le_refl _

theorem trans (h : Supplies rule left c held c' held') (h' : Supplies rule left' c' held' c'' held'') :
    Supplies rule (left' + left) c held c'' held'' where
  once := h'.once.trans h.once
  around := h'.around.trans h.around
  table := h.table.trans h'.table
  quiet := by
    intro ho
    obtain ⟨entered, hopen⟩ := h.quiet ho
    obtain ⟨entered', hopen'⟩ := h'.quiet (h.once.trans ho)
    refine ⟨entered' + entered, ?_⟩
    rw [Nat.add_comm left', List.replicate_add, List.append_assoc, hopen', ← List.append_assoc,
      List.replicate_append_replicate, Nat.add_comm left, ← List.replicate_append_replicate,
      List.append_assoc, hopen, ← List.append_assoc, List.replicate_append_replicate]
  weight := by
    intro W hW
    have hfirst := h.weight W fun p hp => hW p (rule.ofLess h'.table.length_le hp)
    have hsecond := h'.weight W fun p hp => hW p (h.once ▸ hp)
    omega

theorem andThen (h : Supplies rule left c held c' held') (h' : Supplies rule 0 c' held' c'' held'') :
    Supplies rule left c held c'' held'' := by
  have htrans := h.trans h'
  rw [Nat.zero_add] at htrans
  exact htrans

theorem hold (h : Supplies rule left c held c' held') (more : Scale → Nat) :
    Supplies rule left c (more + held) c' (more + held') :=
  { h with
    weight := by
      intro W hW
      have hweight := h.weight W hW
      simp only [Pi.add_apply]
      omega }

theorem drop (h : Supplies rule left c held c' held') : Supplies rule left c held c' 0 :=
  h.andThen (.ofMoves rfl rfl ⟨rfl, rfl⟩ rfl fun _ => Nat.add_le_add_left (Nat.zero_le _) _)

end Supplies

namespace Lower

variable {op : Operation} {held : Scale → Nat}

/-- Whether an action makes only what a rule allows, where it takes something and gives something back. -/
def Supplying (rule : PartRule) {α : Type} (x : Lower α) (held : Scale → Nat) (given : α → Scale → Nat) :
    Prop := ∀ c, Supplies rule 0 c held (x c).2 (given (x c).1)

def Obeys (rule : PartRule) {α : Type} (x : Lower α) : Prop := Supplying rule x 0 fun _ => 0

section

variable {rule : PartRule} {α β : Type}

theorem Supplying.bind {x : Lower α} {f : α → Lower β} {given : α → Scale → Nat} {given' : β → Scale → Nat}
    (hx : Supplying rule x held given) (hf : ∀ a, Supplying rule (f a) (given a) given') :
    Supplying rule (x >>= f) held given' :=
  fun c => (hx c).trans (hf _ _)

namespace Obeys

theorem pure (a : α) : Obeys rule (Pure.pure a) := fun c => .refl c _

theorem bind {x : Lower α} {f : α → Lower β} (hx : Obeys rule x) (hf : ∀ a, Obeys rule (f a)) :
    Obeys rule (x >>= f) := fun c => (hx c).trans (hf _ _)

theorem read {f : Context → Lower β} (hf : ∀ c, Obeys rule (f c)) : Obeys rule (get >>= f) :=
  fun c => hf c c

theorem hold {x : Lower α} (h : Obeys rule x) (held : Scale → Nat) : Supplying rule x held fun _ => held :=
  fun c => (h c).hold held

theorem ofSame {x : Lower α}
    (h : ∀ c, (∀ W : Scale, W.context (x c).2 = W.context c) ∧ (x c).2.frame.once = c.frame.once ∧
      (x c).2.outer = c.outer ∧ (x c).2.openEffects = c.openEffects ∧
      (x c).2.templates = c.templates ∧ (x c).2.rootTemplates = c.rootTemplates) : Obeys rule x := by
  intro c
  obtain ⟨hweight, honce, houter, hopen, htable⟩ := h c
  exact .ofMoves honce (by rw [houter]) htable hopen fun W => Nat.le_of_eq (by rw [hweight])

end Obeys

end

/-! ## Basic actions -/

theorem sum_insertAt {α : Type} (f : α → Nat) (items : List α) (item : α) (index : Option Nat) :
    ((insertAt items item index).1.map f).sum = (items.map f).sum + f item := by
  cases index with
  | none => simp [insertAt]
  | some i =>
    have hsplit := congrArg (fun l => (l.map f).sum) (List.take_append_drop i items)
    simp only [List.map_append, List.sum_append] at hsplit
    simp only [insertAt, List.map_append, List.map_cons, List.sum_append, List.sum_cons]
    omega

section

variable (W : Scale)

theorem weight_withChildren (n : NodePlan) (children : List NodePlan) :
    W.node { n with children } + (n.children.map W.node).sum = W.node n + (children.map W.node).sum := by
  rw [W.node_eq, W.node_eq n]
  simp only [NodePlan.label]
  omega

theorem weight_act (c : Context) (op : Operation) (index : Option Nat) :
    W.context (c.act op index) = W.context c + W.operation op := by
  simp only [Context.act, Scale.context, Scale.opened, sum_insertAt]
  omega

theorem weight_addEffect (c : Context) (e : Effect) (index : Option Nat) :
    W.context (c.addEffect e index) = W.context c + W.effect e := by
  simp only [Context.addEffect, Scale.context, Scale.opened, sum_insertAt]
  omega

end

section

variable {expressions : List Expression}

theorem reactive_changing (h : changing expressions ≠ []) (hop : op.parts = [])
    (hfixed : op.IsFixed expressions) :
    Effect.Reactive ⟨changing expressions, [op]⟩ where
  expressions := h
  changing := by
    intro x hx
    simpa using (List.mem_filter.mp hx).2
  single := ⟨op, rfl⟩
  bare := by
    rintro _ hmem
    rwa [List.mem_singleton.mp hmem]
  undelegated := by
    intro l hl
    by_contra hdelegate
    refine h (List.filter_eq_nil_iff.mpr fun x hx => ?_)
    simp [hfixed l (List.mem_singleton.mp hl).symm (by simpa using hdelegate) x hx]

end

section

variable {rule : PartRule} {c c' : Context}

theorem supplies_act (op : Operation) (index : Option Nat) (c : Context) :
    Supplies rule 0 c (·.operation op) (c.act op index) 0 :=
  .ofMoves rfl rfl ⟨rfl, rfl⟩ rfl fun W => Nat.le_of_eq (weight_act W c op index)

theorem supplies_registered {cursor : Cursor} (h : Registered op cursor c c')
    (hop : ∀ W : Scale, W.operation op = 0) (hparts : op.parts = []) : Supplies rule 0 c 0 c' 0 := by
  cases h with
  | once =>
    refine .ofMoves rfl rfl ⟨rfl, rfl⟩ rfl fun W => Nat.le_of_eq ?_
    rw [weight_act, hop]
    rfl
  | again honce hne hfixed =>
    refine ⟨rfl, rfl, .same rfl rfl, fun ho => ?_, fun W hW => Nat.le_of_eq ?_⟩
    · rw [honce] at ho
      cases ho
    have heffect := hW _ (honce.symm ▸ rule.effect (reactive_changing hne hparts hfixed))
    simp [weight_addEffect, Scale.effect, heffect, hop]

theorem IsDirectiveWork.bare (h : IsDirectiveWork op) : op.parts = [] ∧ op.census = [] := by
  obtain ⟨-, hblock, hnodes, -⟩ := h
  cases op with
  | setNodes element values blocks once generated => exact absurd rfl (hnodes _ _ _ _ _)
  | _ => simp_all [Operation.isBlock, Operation.parts, Operation.census]

theorem supplies_number (h : c.frame.plan.id = none) : Supplies rule 0 c 0 c.number 0 := by
  refine .ofMoves rfl rfl ⟨rfl, rfl⟩ rfl fun W => ?_
  have hlabel : c.number.frame.plan.label = c.frame.plan.label.number c.nextId := rfl
  have hnumber := W.numbered c.frame.plan.label c.nextId h
  have hnode := W.node_eq c.frame.plan
  have hnode' := W.node_eq c.number.frame.plan
  rw [hlabel] at hnode'
  simp only [Scale.context, Scale.frame]
  simp only [Context.number] at hnode' ⊢
  omega

theorem supplies_piece {pieces : List String} {template : Option Nat}
    (hpieces : pieces = c.templates ∨ ∃ s, s ≠ "" ∧ s ∉ c.templates ∧ pieces = c.templates ++ [s])
    (htemplate : ∀ k, template = some k → k < pieces.length) :
    Supplies rule 0 c 0 { c with templates := pieces, frame.plan.template := template } 0 := by
  have htable : Table c { c with templates := pieces } := by
    rcases hpieces with rfl | ⟨s, hs, hnew, rfl⟩
    · exact .same rfl rfl
    · refine ⟨List.prefix_append _ _, fun hd => ?_, fun u hu => ?_, fun k hk => Or.inl hk⟩
      · exact List.nodup_append.mpr ⟨hd, by simp, by
          rintro a ha b hb rfl
          exact hnew (List.mem_singleton.mp hb ▸ ha)⟩
      · rcases List.mem_append.mp hu with hu | hu
        · exact Or.inl hu
        · exact Or.inr (List.mem_singleton.mp hu ▸ hs)
  refine ⟨rfl, rfl, ⟨htable.kept, htable.distinct, htable.filled, htable.roots⟩, fun _ => ⟨0, rfl⟩,
    fun W hW => ?_⟩
  have hzero : (template.toList.map fun k => W.part (.template k)).sum = 0 := by
    cases template with
    | none => rfl
    | some k => simpa using hW _ (rule.template (htemplate k rfl))
  have hnode := W.node_eq c.frame.plan
  have hnode' := W.node_eq { c.frame.plan with template := template }
  simp only [hzero, NodePlan.label] at hnode hnode'
  simp only [Scale.context, Scale.frame]
  omega

theorem supplies_enterBlock (loc : Location) (isLoop : Bool) (c : Context) :
    Supplies rule 0 c 0 (enterBlock loc isLoop c).2 0 := by
  refine ⟨rfl, rfl, .same rfl rfl, fun _ => ⟨1, rfl⟩, fun W _ => Nat.le_of_eq ?_⟩
  simp only [enterBlock, run_modify, Scale.context, Scale.frame, Scale.saved, Scale.opened_empty,
    Scale.slots_nil, Scale.node_empty, List.map_cons, List.sum_cons]
  omega

end

end Lower

def Deed.isAllowed : Deed → Bool
  | .number | .flags | .markup | .root | .work | .inset | .insertion | .report | .names | .piece | .object
  | .text | .mark | .wrap | .enter | .discard | .scope | .gather | .fault => true
  | _ => false

theorem Deed.Changes.supplies {rule : PartRule} {c c' : Context} {d : Deed} (h : Changes c d c')
    (hd : d.isAllowed = true) : Supplies rule 0 c 0 c' 0 := by
  -- what changes neither parts nor markup
  have hsame : ∀ {c' : Context}, c'.frame.once = c.frame.once → c'.outer = c.outer →
      c'.openEffects = c.openEffects → c'.templates = c.templates → c'.rootTemplates = c.rootTemplates →
      (∀ W : Scale, W.context c' = W.context c) → Supplies rule 0 c 0 c' 0 :=
    fun honce houter hopen htable hroots hweight =>
      .ofMoves honce (by rw [houter]) ⟨htable, hroots⟩ hopen fun W => Nat.le_of_eq (by rw [hweight])
  cases h with
  | number h => exact Lower.supplies_number h
  | work hop h =>
    obtain ⟨hparts, hcensus⟩ := hop.bare
    exact Lower.supplies_registered h (fun W => W.operation_of_nil hparts hcensus) hparts
  | inset hcensus hparts h =>
    exact Lower.supplies_registered h (fun W => W.operation_of_nil hparts hcensus) hparts
  | insertion ids into =>
    have hregistered : Registered (.insertNodes ids into) .atEnd c _ := .once
    exact Lower.supplies_registered hregistered (fun _ => rfl) rfl
  | piece hpieces htemplate => exact Lower.supplies_piece hpieces htemplate
  | enter loc isLoop => exact Lower.supplies_enterBlock loc isLoop c
  | flags =>
    refine hsame rfl rfl rfl rfl rfl fun W => ?_
    simp only [Scale.context, Scale.frame, Scale.node_eq, NodePlan.label]
  | object e =>
    refine hsame rfl rfl rfl rfl rfl fun W => ?_
    simp [Scale.context, Scale.frame, Scale.slots, SlotGroup.bodies]
  | _ => first | exact hsame rfl rfl rfl rfl rfl fun _ => rfl | cases hd

namespace Lower

variable {c : Context} {once : Bool} {held : Scale → Nat}

section

variable {rule : PartRule}

theorem Does.obeys {α : Type} {deeds : List Deed} {x : Lower α} (h : Does deeds x)
    (hd : deeds.all Deed.isAllowed = true) : Obeys rule x :=
  h.related (R := fun c c' => Supplies rule 0 c 0 c' 0) (fun c => .refl c _) .trans
    fun d hmem _ _ hc => hc.supplies (List.all_eq_true.mp hd d hmem)

theorem lt_of_getElem? {pieces : List String} {k : Nat} {s : String} (h : pieces[k]? = some s) :
    k < pieces.length := (List.getElem?_eq_some_iff.mp h).1

theorem registerTemplate_index {k : Nat} (h : (registerTemplate c).1 = some k) :
    k < (registerTemplate c).2.templates.length := by
  rcases registerTemplate_cases c with ⟨hr, -⟩ | ⟨k', pieces, hr, -, hk, -⟩
  · rw [hr] at h
    cases h
  · rw [hr] at h ⊢
    obtain rfl := Option.some.inj h
    exact lt_of_getElem? hk

theorem obeys_addToBlock : Obeys rule addToBlock := by
  intro c
  have hgive : Obeys rule giveBack := by
    refine .ofSame fun c => ?_
    simp only [giveBack, run_modify]
    split <;> exact ⟨fun _ => rfl, rfl, rfl, rfl, rfl, rfl⟩
  have hnote : Supplies rule 0 (registerTemplate (reference c).2).2 0
      (noteRootTemplate (registerTemplate (reference c).2).1 (registerTemplate (reference c).2).2).2 0 := by
    simp only [noteRootTemplate, run_modify]
    split
    · refine ⟨rfl, rfl, ⟨List.prefix_refl _, id, fun s hs => Or.inl hs, fun k hk => ?_⟩,
        fun _ => ⟨0, rfl⟩, fun w _ => Nat.le_of_eq rfl⟩
      rcases List.mem_append.mp hk with hk | hk
      · exact Or.inl hk
      · exact Or.inr (registerTemplate_index (by simpa using hk))
    · exact .refl _ _
  exact (does_reference.obeys rfl c).trans
    ((does_registerTemplate.obeys rfl _).trans (hnote.trans (hgive _)))

end

/-! ## Blocks and frames -/

theorem weight_close (W : Scale) (b : OpenBlock) (plan : NodePlan) :
    W.block (b.close plan) = W.part (.block (b.close plan)) + (W.node plan + W.opened b) :=
  W.block_eq _

section

variable {rule : PartRule}

theorem exitBlock_of_outermost (h : (registerTemplate c).2.saved = []) :
    exitBlock c = (OpenBlock.close (.empty .stub) .empty,
      { (registerTemplate c).2 with log := .left :: (registerTemplate c).2.log }) := by
  simp only [exitBlock, note, run_bind, run_get, run_modify, h, run_pure]

theorem exitBlock_of_inner {b : SavedBlock} {saved : List SavedBlock}
    (h : (registerTemplate c).2.saved = b :: saved) :
    exitBlock c = ((registerTemplate c).2.block.close (registerTemplate c).2.frame.plan,
      (registerTemplate c).2.leave b saved) := by
  simp only [exitBlock, note, run_bind, run_get, run_set, run_modify, h, run_pure, Context.leave]

theorem supplies_exitBlock (hquiet : c.frame.once = true → c.block.effects = [])
    (h : rule.allows c.frame.once (exitBlock c).2.templates.length (.block (exitBlock c).1)) :
    Supplies rule 1 c 0 (exitBlock c).2 (·.block (exitBlock c).1) := by
  have hregister : (registerTemplate c).2.frame.once = c.frame.once ∧
      (registerTemplate c).2.block = c.block := by
    rcases registerTemplate_cases c with ⟨hr, -⟩ | ⟨k, pieces, hr, -⟩ <;> rw [hr] <;> exact ⟨rfl, rfl⟩
  obtain ⟨honce, hblock⟩ := hregister
  suffices hleave : Supplies rule 1 (registerTemplate c).2 0 (exitBlock c).2 (·.block (exitBlock c).1) from
    (does_registerTemplate.obeys rfl c).trans hleave
  rcases hsaved : (registerTemplate c).2.saved with _ | ⟨b, saved⟩
  · rw [exitBlock_of_outermost hsaved] at h ⊢
    refine ⟨rfl, rfl, .same rfl rfl, fun _ => ⟨1, rfl⟩, fun W hW => Nat.le_of_eq ?_⟩
    simp [weight_close, Scale.node_empty, hW _ (honce ▸ h), Scale.context]
  · rw [exitBlock_of_inner hsaved] at h ⊢
    refine ⟨rfl, rfl, .same rfl rfl, fun ho => ⟨0, ?_⟩, fun W hW => ?_⟩
    · have hempty : (registerTemplate c).2.block.effects = [] := by
        rw [hblock]
        exact hquiet (honce ▸ ho)
      simp [Context.openEffects, Context.leave, hsaved, hempty]
    · -- the slots that were found in the block are dropped
      simp only [weight_close, hW _ (honce ▸ h), Context.leave, Scale.context, Scale.frame, Scale.saved, hsaved,
        List.map_cons, List.sum_cons]
      omega

/-! ## Going down and up -/

/-- What is done below a node, and taken up by it, is done at the node. A node below may be rendered only
once where the node is not. -/
theorem supplies_child {c c₁ c₂ : Context} {v : Visited} {index : Nat}
    (hmore : c.frame.once = true → once = true)
    (h : Supplies rule 0 ((c.enterChild v index).withOnce once) 0 c₁ held)
    (honce : c₂.frame.once = c.frame.once) (haround : c₂.outer.map Frame.standing = c.outer.map Frame.standing)
    (htable : c₂.templates = c₁.templates ∧ c₂.rootTemplates = c₁.rootTemplates)
    (hopen : c₂.openEffects = c₁.openEffects)
    (hweight : ∀ W : Scale, W.context c₂ ≤ W.context c₁) : Supplies rule 0 c 0 c₂ held where
  once := honce
  around := haround
  table := Table.trans ⟨h.table.kept, h.table.distinct, h.table.filled, h.table.roots⟩
    (.same htable.1 htable.2)
  quiet := by
    intro ho
    rw [hopen]
    exact h.quiet (hmore ho)
  weight := by
    intro W hW
    have hallowed : ∀ p, rule.allows once c₁.templates.length p → W.part p = 0 := by
      intro p hp
      refine hW p (htable.1 ▸ ?_)
      cases ho : c.frame.once with
      | true => exact hmore ho ▸ hp
      | false =>
        cases once with
        | true => exact rule.ofOnce hp
        | false => exact hp
    have hinner := h.weight W hallowed
    have henter : W.context ((c.enterChild v index).withOnce once) = W.context c := by
      simp only [Context.withOnce, Context.enterChild, Scale.context, Frame.ofNode, Scale.frame,
        Scale.slots_nil, Scale.node_empty, List.map_cons, List.sum_cons]
      omega
    have hmove := hweight W
    omega

theorem outer_of_around {c c₁ : Context} {v : Visited} {index : Nat}
    (h : c₁.outer.map Frame.standing = ((c.enterChild v index).withOnce once).outer.map Frame.standing) :
    ∃ parent outer, c₁.outer = parent :: outer ∧ parent.once = c.frame.once ∧
      parent.plan.id = c.frame.plan.id ∧ outer.map Frame.standing = c.outer.map Frame.standing := by
  obtain ⟨parent, outer, houter, hparent, haround⟩ := List.map_eq_cons_iff.mp h
  exact ⟨parent, outer, houter, congrArg Prod.fst hparent, congrArg Prod.snd hparent, haround⟩

section

variable {c c₁ : Context} {v : Visited} {index : Nat} {once : Bool}
  (hmore : c.frame.once = true → once = true)

include hmore

theorem supplies_popFrame (h : Supplies rule 0 ((c.enterChild v index).withOnce once) 0 c₁ held) :
    Supplies rule 0 c 0 (popFrame c₁).2 held ∧ (popFrame c₁).2.frame.plan.id = c.frame.plan.id := by
  obtain ⟨parent, outer, houter, honce, hid, haround⟩ := outer_of_around h.around
  rw [popFrame_of_cons houter]
  refine ⟨supplies_child hmore h honce haround ⟨rfl, rfl⟩ rfl fun W => ?_, hid⟩
  simp only [Scale.context, houter, List.map_cons, List.sum_cons]
  omega

theorem supplies_takeChild (isFragment : Bool)
    (h : Supplies rule 0 ((c.enterChild v index).withOnce once) 0 c₁ 0) :
    Supplies rule 0 c 0 (takeChild isFragment c₁).2 0 := by
  have hmove : ∀ {c₁ : Context} {parent : Frame} {outer : List Frame}, c₁.outer = parent :: outer →
      ∀ W : Scale, W.context ({ c₁ with frame := parent, outer }.adopt c₁ isFragment) ≤ W.context c₁ := by
    intro c₁ parent outer houter W
    have hparent := W.node_eq parent.plan
    have hnew := W.node_eq { parent.plan with
      hasDynamicChild := parent.plan.hasDynamicChild || needsAttention c₁.frame.plan
      children := parent.plan.children ++ [c₁.frame.plan] }
    simp only [NodePlan.label, List.map_append, List.map_cons, List.map_nil, List.sum_append, List.sum_cons,
      List.sum_nil] at hparent hnew
    simp only [Context.adopt, Scale.context, Scale.frame, houter, List.map_cons, List.sum_cons]
    omega
  cases isFragment with
  | false =>
    obtain ⟨parent, outer, houter, honce, -, haround⟩ := outer_of_around h.around
    rw [takeChild_eq houter]
    exact supplies_child hmore h honce haround ⟨rfl, rfl⟩ rfl (hmove houter)
  | true =>
    have h' := h.trans (obeys_addToBlock c₁)
    obtain ⟨parent, outer, houter, honce, -, haround⟩ := outer_of_around h'.around
    rw [takeChild_eq ((addToBlock_outer c₁).symm.trans houter)]
    exact supplies_child hmore h' honce haround ⟨rfl, rfl⟩ rfl (hmove houter)

end

end

/-! ## Slots -/

section

variable (W : Scale)

theorem weight_addSlot (slots : List SlotGroup) (name : Option Expression) (body : SlotBody) :
    W.slots (SlotGroup.add slots name body) = W.slots slots + W.block body.block := by
  simp [Scale.slots, (SlotGroup.bodies_add slots name body).1]

theorem weight_addTemplate {slots slots' : List SlotGroup} {slot : Directive} {body : SlotBody}
    {condition otherwise loop : Option Directive} {head : Option LoopHead}
    (h : SlotGroup.addTemplate slots slot body condition otherwise loop head = .ok slots') :
    W.slots slots' ≤ W.slots slots + W.block body.block := by
  have hbodies := ((SlotGroup.bodies_sublist h).map fun s => W.block s.block).sum_le_sum (by simp)
  simpa [Scale.slots] using hbodies

end

section

variable {rule : PartRule}

theorem supplying_takeSlots : Supplying rule takeSlots 0 fun slots => (·.slots slots) := by
  intro c
  refine .ofMoves rfl rfl ⟨rfl, rfl⟩ rfl fun W => Nat.le_of_eq ?_
  simp only [takeSlots, modifyFrame, run_bind, run_get, run_modify, run_pure, Scale.context, Scale.frame,
    Scale.slots_nil, Pi.zero_apply]
  omega

theorem supplying_addSlots (slots : List SlotGroup) :
    Supplying rule (addSlots slots) (·.slots slots) fun _ => 0 := by
  intro c
  refine .ofMoves rfl rfl ⟨rfl, rfl⟩ rfl fun W => Nat.le_of_eq ?_
  simp only [addSlots, modifyFrame, run_modify, Scale.context, Scale.frame, Scale.slots_append,
    Pi.zero_apply]
  omega

end

/-! ## Conditions -/

theorem weight_attach (W : Scale) (o : Otherwise) : ∀ b : Branch,
    W.branch (b.attach o) ≤ W.branch b + W.otherwise (some o)
  | ⟨id, condition, positive, some (.branch next), once⟩ => by
    have ih := weight_attach W o next
    simp only [Branch.attach, Scale.branch_eq, Scale.otherwise_branch]
    omega
  | ⟨id, condition, positive, some (.block _), once⟩ | ⟨id, condition, positive, none, once⟩ => by
    simp only [Branch.attach, Scale.branch_eq]
    omega

section

variable {id i : Nat} {condition : Option Expression} {block : Block} {once : Bool}

theorem weight_ofBranch {W : Scale}
    (hW : ∀ e, W.part (.maker (.branch ⟨id, e, block, none, once⟩ none)) = 0) :
    W.otherwise (some (.ofBranch id condition block once)) = W.block block := by
  cases condition with
  | none => exact W.otherwise_block block
  | some e =>
    have hnone : W.otherwise none = 0 := by simp [Scale.otherwise, Otherwise.partsOf?, Otherwise.censusOf?]
    rw [Otherwise.ofBranch, Scale.otherwise_branch, Scale.branch_eq, hW, hnone, Nat.zero_add, Nat.add_zero]

theorem id_mem_ids (b : Branch) : b.id ∈ b.ids := by
  unfold Branch.ids
  split <;> simp

theorem mem_ids_attach : ∀ b : Branch,
    i ∈ (b.attach (.ofBranch id condition block once)).ids → i ∈ b.ids ∨ i = id
  | ⟨id', condition', positive, some (.branch next), once'⟩, hi => by
    rw [Branch.attach, Branch.ids, List.mem_cons] at hi
    rw [Branch.ids, List.mem_cons]
    rcases hi with rfl | hi
    · exact Or.inl (Or.inl rfl)
    · exact (mem_ids_attach next hi).imp_left Or.inr
  | ⟨id', condition', positive, some (.block _), once'⟩, hi
  | ⟨id', condition', positive, none, once'⟩, hi => by
    cases condition <;> simp_all [Branch.attach, Otherwise.ofBranch, Branch.ids]

theorem flaw_attach {n : NodePlan} {b : Branch} {into : Option Insertion}
    (hop : n.operation = some (.branch b into)) (condition : Option Expression) (block : Block) (once : Bool) :
    (n.withOperation
      (.branch (b.attach (.ofBranch b.id condition block once)) into)).label.flaw ≤ n.label.flaw := by
  refine Label.flaw_le fun hfits => ⟨hfits.1, fun i hi => hfits.2.1 i ?_, rfl⟩
  have hmade : n.label.made = b.ids := by simp [NodePlan.label, hop, Operation.madeIds]
  rw [hmade]
  rcases mem_ids_attach b hi with hi | rfl
  · exact hi
  · exact id_mem_ids b

theorem weight_mapLastBranch {W : Scale} (condition : Option Expression)
    (hW : ∀ id e, W.part (.maker (.branch ⟨id, e, block, none, once⟩ none)) = 0) (plans : List NodePlan) :
    ((mapLastBranch (fun b => b.attach (.ofBranch b.id condition block once)) plans).map W.node).sum ≤
      (plans.map W.node).sum + W.block block := by
  rcases mapLastBranch_cases (fun b => b.attach (.ofBranch b.id condition block once)) plans with
    h | ⟨before, n, after, b, into, hplans, hop, hmap⟩
  · rw [h]
    exact Nat.le_add_right _ _
  · have hlabel := W.changed n.label (n.withOperation _).label rfl rfl (flaw_attach hop condition block once)
    have hbranch := weight_attach W (.ofBranch b.id condition block once) b
    rw [weight_ofBranch (hW b.id)] at hbranch
    have hoperation : ∀ b : Branch, W.operation (.branch b into) = W.branch b := fun _ => by
      rw [Scale.operation, Operation.parts, Operation.census, Scale.branch]
    have hold := W.node_eq n
    have hnew := W.node_eq (n.withOperation (.branch (b.attach (.ofBranch b.id condition block once)) into))
    simp only [hop, NodePlan.withOperation, Option.toList_some, List.map_cons, List.map_nil, List.sum_cons,
      List.sum_nil, hoperation] at hold hnew hlabel
    rw [hmap, hplans]
    simp only [NodePlan.withOperation, List.map_append, List.map_cons, List.sum_append, List.sum_cons]
    omega

end

section

variable {rule : PartRule}

theorem supplies_attachBranch (condition : Option Expression) (block : Block)
    (honce : c.frame.once = true → once = true) :
    Supplies rule 0 c (·.block block)
      (modifyParent (Frame.attachBranch fun id => .ofBranch id condition block once) c).2 0 := by
  cases houter : c.outer with
  | nil =>
    rw [modifyParent_of_nil houter]
    exact (Supplies.refl c _).drop
  | cons parent outer =>
    rw [modifyParent_of_cons houter]
    refine ⟨rfl, by simp [houter, Frame.attachBranch, Frame.standing], .same rfl rfl, fun _ => ⟨0, rfl⟩,
      fun W hW => ?_⟩
    have hmakers : ∀ id e, W.part (.maker (.branch ⟨id, e, block, none, once⟩ none)) = 0 := fun id e =>
      hW _ (rule.maker fun ho => by simp [Operation.once?, honce ho])
    have hreverse : ∀ plans : List NodePlan, (plans.reverse.map W.node).sum = (plans.map W.node).sum :=
      fun plans => by rw [List.map_reverse, List.sum_reverse]
    have hmap := weight_mapLastBranch condition hmakers parent.plan.children.reverse
    have hnew := weight_withChildren W parent.plan (mapLastBranch
      (fun b => b.attach (.ofBranch b.id condition block once)) parent.plan.children.reverse).reverse
    rw [hreverse] at hmap hnew
    simp only [Scale.context, Frame.attachBranch, Scale.frame, houter, List.map_cons, List.sum_cons,
      Pi.zero_apply]
    omega

/-! ## Nodes that are made -/

theorem supplies_setOperation (op : Operation) {id : Nat}
    (hop : ∀ W : Scale, W.operation op = W.part (.maker op) + held W)
    (honce : c.frame.once = true → op.once? = some true) (hid : c.frame.plan.id = some id)
    (hids : ∀ i ∈ op.madeIds, i = id) (hblock : op.isBlock = true) :
    Supplies rule 0 c held (modifyPlan (fun p => { p with operation := some op }) c).2 0 := by
  refine ⟨rfl, rfl, .same rfl rfl, fun _ => ⟨0, rfl⟩, fun W hW => ?_⟩
  have hzero : W.part (.maker op) = 0 := hW _ (rule.maker honce)
  have hop := hop W
  have hlabel := W.changed c.frame.plan.label (c.frame.plan.withOperation op).label rfl rfl
    (Label.flaw_le fun hfits => ⟨hfits.1, fun i hi => hid.trans (congrArg some (hids i hi).symm), hblock⟩)
  have hnode := W.node_eq c.frame.plan
  have hnew := W.node_eq (c.frame.plan.withOperation op)
  simp only [NodePlan.withOperation, Option.toList_some, List.map_cons, List.map_nil, List.sum_cons,
    List.sum_nil] at hnew hlabel
  have hrun : (modifyPlan (fun p => { p with operation := some op }) c).2 =
      { c with frame := { c.frame with plan := { c.frame.plan with operation := some op } } } := rfl
  rw [hrun]
  simp only [Scale.context, Scale.frame, Pi.zero_apply]
  omega

/-! ## Insertions -/

theorem weight_insertAt (W : Scale) (into : Insertion) (n : NodePlan) :
    W.node { n with operation := n.operation.map (Operation.insertAt into) } = W.node n := by
  rw [W.node_eq, W.node_eq n]
  cases hn : n.operation with
  | none => simp [NodePlan.label, hn]
  | some op =>
    have hop : (op.insertAt into).parts = op.parts ∧ (op.insertAt into).census = op.census ∧
        (op.insertAt into).madeIds = op.madeIds ∧ (op.insertAt into).isBlock = op.isBlock := by
      cases op <;> simp [Operation.insertAt, Operation.parts, Operation.census, Operation.madeIds,
        Operation.isBlock]
    simp [NodePlan.label, hn, hop, Scale.operation]

theorem obeys_insertRun (run : List Nat) (anchor : Option Anchor) :
    Obeys rule (insertRun run anchor) := by
  refine .bind (does_reference.obeys rfl) fun parent => .read fun c => ?_
  refine .bind (.ofSame fun c => ⟨fun W => ?_, rfl, rfl, rfl, rfl, rfl⟩) fun _ => ?_
  · have hchildren := weight_withChildren W c.frame.plan
      (NodePlan.insertRun run ⟨parent, anchor⟩ c.frame.plan.children)
    rw [NodePlan.map_insertRun (weight_insertAt W _)] at hchildren
    simp only [modifyPlan, modifyFrame, run_modify, Scale.context, Scale.frame]
    omega
  · dsimp only
    split
    · exact fun c => supplies_act (.insertNodes _ _) none c
    · exact .pure _

theorem sum_modify {α : Type} {f : α → α} {g : α → Nat} {before after : Nat}
    (hf : ∀ a, g (f a) + after ≤ g a + before) (hle : after ≤ before) (items : List α) (index : Nat) :
    ((items.modify index f).map g).sum + after ≤ (items.map g).sum + before := by
  induction items generalizing index with
  | nil => simpa using hle
  | cons a items ih =>
    cases index with
    | zero =>
      have ha := hf a
      rw [List.modify_zero_cons, List.map_cons, List.map_cons, List.sum_cons, List.sum_cons]
      omega
    | succ index =>
      have hitems := ih index
      rw [List.modify_succ_cons, List.map_cons, List.map_cons, List.sum_cons, List.sum_cons]
      omega

theorem obeys_putPlaceholder (index : Nat) : Obeys rule (putPlaceholder index) := by
  intro c
  refine .ofMoves rfl rfl ⟨rfl, rfl⟩ rfl fun W => ?_
  have hheld : ∀ n : NodePlan, W.node (n.held c.nextId) + W.unused (c.nextId + 1) ≤
      W.node n + W.unused c.nextId := by
    intro n
    have hanchor := W.anchored n.label c.nextId
    have hlabel : (n.held c.nextId).label = n.label.withAnchor c.nextId := rfl
    rw [W.node_eq, W.node_eq n, hlabel]
    simp only [NodePlan.held]
    omega
  have hmodify := sum_modify hheld (W.unused_succ_le _) c.frame.plan.children index
  have hchildren := weight_withChildren W c.frame.plan
    (c.frame.plan.children.modify index (NodePlan.held c.nextId))
  rw [putPlaceholder_eq]
  simp only [Scale.context, Scale.frame]
  omega

theorem obeys_insertRuns (runs : List (List Nat × RunPlace)) : Obeys rule (insertRuns runs) := by
  induction runs with
  | nil => exact .pure _
  | cons r runs ih =>
    obtain ⟨run, place⟩ := r
    cases place with
    | front => exact (obeys_insertRun _ _).bind fun _ => ih
    | middle => exact (obeys_putPlaceholder _).bind fun a => (obeys_insertRun _ _).bind fun _ => ih
    | back => exact (obeys_insertRun _ _).bind fun _ => ih

end

end Lower

end JsxTemplate
