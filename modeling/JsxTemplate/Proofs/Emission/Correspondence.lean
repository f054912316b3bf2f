import JsxTemplate.Proofs.Emission.Function
import JsxTemplate.Proofs.Emission.Statements
import JsxTemplate.Proofs.Plan.Inner

/-!
# Comparing the code of two runs

The code of a plan is written twice, in places where the same is in force up to certain differences. A
correspondence says which places are compared and how the code is related. It has one clause for each way
in which code is put together; from these clauses it follows that the code of every block corresponds
(`Correspondence.body`).

The relation also knows of the events that are caught while the code is written. Some of them are the
code's own, that is, caught by listeners outside of the functions in it; the others are caught by listeners
of the blocks for which these functions are written.

Loops are the exception: what is written for them depends on what is wanted for loops, and so each
correspondence has to treat them on its own (`Correspondence.Loops`).
-/

namespace JsxTemplate

open Emit

/-! ## Events -/

def Operation.caught : Operation → List String
  | .setEvent l => l.caught
  | _ => []

def Block.caught (b : Block) : List String :=
  (b.operations ++ b.effects.flatMap Effect.operations).flatMap Operation.caught

def NodePlan.Muted (n : NodePlan) : Prop := ∀ op, n.operation = some op → op.caught = []

/-- Whether the nodes of a block are made by operations that catch no events. -/
def Block.Muted (b : Block) : Prop := ∀ n ∈ b.plan.children, ∀ m ∈ n.nodes, m.Muted

/-- Whether some events are those of a block, unless its nodes catch more. -/
def Block.Owns (b : Block) (own : List String) : Prop := b.Muted → ∀ e, e ∈ own ↔ e ∈ b.caught

/-- Whether blocks may stand in an operation. -/
def Operation.mayHaveBlocks : Operation → Bool
  | .setNodes _ _ _ _ _ | .createNodes _ _ _ _ _ | .branch _ _ | .loop _ _ | .component _ _ => true
  | _ => false

theorem settles_operation {op : Operation} (h : op.mayHaveBlocks = false) :
    Settles (Listing.Flat op.caught) (Listing.operation op) op.caught := by
  cases op with
  | setProperty e p tag =>
    rw [Listing.operation]
    exact settled_setProperty e p tag
  | setProperties e groups tag =>
    rw [Listing.operation]
    exact settled_setProperties e groups tag
  | setText e values generated =>
    rw [Listing.operation]
    exact settled_setText e values generated
  | setEvent l =>
    rw [Listing.operation]
    exact settles_setEvent l
  | setEvents e value =>
    rw [Listing.operation]
    exact settled_setEvents e value
  | setHtml e value =>
    rw [Listing.operation]
    exact settled_setHtml e value
  | setReference e value inLoop effect =>
    rw [Listing.operation]
    exact settled_setReference e value inLoop effect
  | insertNodes elements into =>
    rw [Listing.operation]
    exact settled_insertNodes elements into
  | directive use =>
    rw [Listing.operation]
    exact settled_builtinDirective use
  | declareReference id =>
    rw [Listing.operation]
    exact Settled.pure (Listing.Plain.cons rfl (.cons rfl .nil))
  | getTextChild parent =>
    rw [Listing.operation]
    exact settled_textChild parent
  | _ => cases h

/-! ## Correspondences -/

/-- Whether a listing is what is written for a block where something is in force. -/
inductive Block.Written (b : Block) (κ : Ambient) : Listing → Prop
  | block (root : Bool) (around : List (Block × Nat)) :
    Written b κ (Listing.blockBody root b (Scene.start ⟨κ, around⟩)).1
  | loop (id : Nat) (kind : List Expression → LoopEffect) (around : List (Block × Nat)) :
    Written b κ (Listing.loopBody id kind b (Scene.start ⟨κ, around⟩)).1

/-- A relation between the listings of two runs. -/
structure Correspondence where
  Compared : Ambient → Ambient → Prop
  /-- The blocks that may stand in the plan. -/
  Covers : Block → Prop
  /-- Whether two listings are related, if the first events are their own and the second ones are all. -/
  Rel : Ambient → Ambient → List String → List String → Listing → Listing → Prop
  alike : ∀ {κ κ' : Ambient}, Compared κ κ' → κ.Matches κ'
  inside : ∀ {κ κ' : Ambient} {f : FunctionScope}, Compared κ κ' → f.Opens κ.depth →
    Compared (f.inside κ) (f.inside κ')
  events : ∀ {κ κ' : Ambient} {own own' events events' : List String} {l l' : Listing},
    Rel κ κ' own events l l' → (∀ e, (e ∈ own ↔ e ∈ own') ∧ (e ∈ events ↔ e ∈ events')) →
    Rel κ κ' own' events' l l'
  flat : ∀ {κ κ' : Ambient} {own : List String} {l : Listing}, l.Flat own → Rel κ κ' own own l l
  append : ∀ {κ κ' : Ambient} {own own' events events' : List String} {l₁ l₁' l₂ l₂' : Listing},
    Rel κ κ' own events l₁ l₁' → Rel κ κ' own' events' l₂ l₂' →
    Rel κ κ' (own ++ own') (events ++ events') (l₁ ++ l₂) (l₁' ++ l₂')
  framed : ∀ {κ κ' : Ambient} {own events : List String} {left l l' right : Listing},
    left.Frames right → Rel κ κ' own events l l' →
    Rel κ κ' own events (left ++ l ++ right) (left ++ l' ++ right)
  rerun : ∀ {κ κ' : Ambient} {own events : List String} {l l' : Listing}, Rel κ κ' own events l l' →
    l.isEmpty = l'.isEmpty ∧ Rel κ κ' own events (Listing.effectFunction l) (Listing.effectFunction l')
  function : ∀ {κ κ' : Ambient} {f : FunctionScope} {b : Block} {own events : List String}
    {body body' : Listing}, Compared κ κ' → f.Opens κ.depth → Covers b → b.Owns own →
    b.Written (f.inside κ) body → b.Written (f.inside κ') body' →
    Rel (f.inside κ) (f.inside κ') own events body body' →
    Rel κ κ' [] events [.function f.parameters body] [.function f.parameters body']

namespace Correspondence

variable {own own' events : List String} {args args' : List (Option Listing)} {ns : List NodePlan}
  {l l' : Listing} {n : NodePlan}

variable (C : Correspondence) {κ κ' : Ambient} {σ τ : Scene}

/-! ## Putting code together -/

theorem cons {p : Piece} (hp : p.isPlain = true) (h : C.Rel κ κ' own events l l') :
    C.Rel κ κ' own events (p :: l) (p :: l') :=
  C.append (C.flat (Listing.plain_of_isPlain hp)) h

theorem behind {r : Listing} (h : C.Rel κ κ' own events l l') (hr : r.Plain) :
    C.Rel κ κ' own events (l ++ r) (l' ++ r) :=
  C.events (C.append h (C.flat hr)) (by simp)

theorem ofCode {code : Code} (h : code.IsLevel) : C.Rel κ κ' [] [] (.ofCode code) (.ofCode code) :=
  C.flat (Listing.plain_ofCode h)

theorem nil : C.Rel κ κ' [] [] [] [] := C.flat Listing.Plain.nil

theorem list (d : Delimiters) {items items' : List Listing}
    (h : Each (C.Rel κ κ' []) events items items') :
    C.Rel κ κ' [] events (Listing.list d items) (Listing.list d items') := by
  have hseparator : Listing.Plain (.ofCode d.separator) :=
    Listing.plain_ofCode (by cases d <;> exact fun _ => rfl)
  have hitems : C.Rel κ κ' [] events (items.intersperse (.ofCode d.separator)).flatten
      (items'.intersperse (.ofCode d.separator)).flatten := by
    induction h with
    | nil => exact C.nil
    | @cons events more item item' items items' hitem hrest ih =>
      cases hrest with
      | nil => simpa using hitem
      | cons hnext hrest =>
        rw [List.intersperse_cons_cons, List.intersperse_cons_cons, List.flatten_cons,
          List.flatten_cons, List.flatten_cons, List.flatten_cons]
        exact C.append hitem (C.append (C.flat hseparator) ih)
  exact C.framed (Listing.frames_delimiters d) hitems

theorem dropMissing_cons {α : Type} (a : Option α) (as : List (Option α)) :
    JsxTemplate.dropMissing (a :: as) =
      if (JsxTemplate.dropMissing as).isEmpty && a.isNone then [] else a :: JsxTemplate.dropMissing as := by
  unfold JsxTemplate.dropMissing
  rw [List.reverse_cons, List.dropWhile_append]
  cases as.reverse.dropWhile Option.isNone <;> cases a <;> simp

theorem dropMissing (h : Each (Maybe (C.Rel κ κ' [])) events args args') :
    Each (Maybe (C.Rel κ κ' [])) events (JsxTemplate.dropMissing args)
      (JsxTemplate.dropMissing args') := by
  induction h with
  | nil => exact .nil
  | cons harg _ ih =>
    rw [dropMissing_cons, dropMissing_cons]
    cases harg with
    | some h => simpa using Each.cons (.some h) ih
    | none =>
      generalize JsxTemplate.dropMissing _ = left at ih ⊢
      generalize JsxTemplate.dropMissing _ = right at ih ⊢
      cases ih with
      | nil => exact .nil
      | cons h hs => exact .cons .none (.cons h hs)

theorem callWithBlanks (blank name : String) (h : Each (Maybe (C.Rel κ κ' [])) events args args') :
    C.Rel κ κ' [] events (Listing.callWithBlanks blank name args)
      (Listing.callWithBlanks blank name args') := by
  refine C.cons rfl (C.list _ ((C.dropMissing h).map fun _ _ _ harg => ?_))
  cases harg with
  | none => exact C.flat (Listing.plain_text blank)
  | some h => exact h

theorem getter (h : C.Rel κ κ' own events l l') : C.Rel κ κ' own events l.getter l'.getter :=
  C.cons rfl (C.behind h (Listing.plain_text _))

inductive PartRel (κ κ' : Ambient) : List String → Listing.SlotPart → Listing.SlotPart → Prop
  | named {events : List String} {entries entries' : List Listing}
    (h : Each (C.Rel κ κ' []) events entries entries') :
    PartRel κ κ' events (.named entries) (.named entries')
  | source {events : List String} {code code' : Listing} (h : C.Rel κ κ' [] events code code') :
    PartRel κ κ' events (.source code) (.source code')

theorem item {part part' : Listing.SlotPart} (h : C.PartRel κ κ' events part part') :
    C.Rel κ κ' [] events part.item part'.item := by
  cases h with
  | named h => exact C.list _ h
  | source h => exact h

theorem slotSources {parts parts' : List Listing.SlotPart}
    (h : Each (C.PartRel κ κ') events parts parts') :
    Each (C.Rel κ κ' []) events (Listing.slotSources parts) (Listing.slotSources parts') := by
  have hitems := C.cons (p := .text "$: ") rfl (C.list .arrayLines (h.map fun _ _ _ => C.item))
  cases h with
  | nil => exact .nil
  | cons hpart hparts =>
    rw [← List.append_nil (_ ++ _)]
    exact .cons hitems .nil

theorem slots {parts parts' : List Listing.SlotPart} (h : Each (C.PartRel κ κ') events parts parts') :
    Maybe (C.Rel κ κ' []) events (Listing.slots parts) (Listing.slots parts') := by
  have hsources := C.slotSources h
  cases h with
  | nil => exact .none
  | cons hpart hparts =>
    cases hpart with
    | named hentries => exact .some (C.list _ (hentries.append (C.slotSources hparts)))
    | source hcode => exact .some (C.list _ hsources)

/-! ## Statements -/

def Scenes (σ τ : Scene) : Prop :=
  C.Compared σ.toAmbient τ.toAmbient ∧ σ.blocks.head? = τ.blocks.head?

/-- Whether what an action writes corresponds in scenes that are compared, with some events of its own. -/
def Steady (own : List String) (x : Emit Listing) : Prop :=
  ∀ ⦃σ τ : Scene⦄, C.Scenes σ τ → Parallel σ τ x x (C.Rel σ.toAmbient τ.toAmbient own) σ τ

variable {C}

theorem Scenes.matches (h : C.Scenes σ τ) : σ.Matches τ := ⟨C.alike h.1, h.2⟩

theorem steady_of_settles {x : Emit Listing} (hx : Settles (Listing.Flat own) x own) : C.Steady own x := by
  intro σ τ h
  obtain ⟨l, hσ, hτ, hl⟩ := hx σ τ h.matches
  exact ⟨l, l, own, hσ, hτ, C.flat hl⟩

theorem parallel_callWith {Q : List String → Listing → Listing → Prop} (name : String)
    (h : Q [] (Listing.call ("_" ++ name) args) (Listing.call ("_" ++ name) args')) :
    Parallel σ τ (callWith name args) (callWith name args') Q σ τ :=
  .after (yields_helper σ name) (yields_helper τ name) (.pure h)

theorem parallel_rerun (h : C.Rel κ κ' own events l l') :
    Parallel σ τ (Emit.rerun l) (Emit.rerun l') (fun more => C.Rel κ κ' own (events ++ more)) σ τ := by
  obtain ⟨hempty, hrel⟩ := C.rerun h
  unfold Emit.rerun
  rw [hempty]
  split
  · next hnone =>
    rw [List.isEmpty_iff.mp hnone, List.isEmpty_iff.mp (hempty.trans hnone)] at h
    exact .pure (C.events h (by simp))
  · exact .after (yields_helper σ _) (yields_helper τ _)
      (.pure (C.events (C.cons rfl (C.cons rfl hrel)) (by simp)))

theorem Steady.bind_append {x y : Emit Listing} (hx : C.Steady own x) (hy : C.Steady own' y) :
    C.Steady (own ++ own') (do let a ← x; let b ← y; return a ++ b) := by
  intro σ τ h
  refine (hx h).bind fun _ a a' ha => (hy h).bind fun _ b b' hb => ?_
  exact .pure (C.events (C.append ha hb) (by simp))

theorem steady_nil : C.Steady [] (pure []) := fun _ _ _ => .pure C.nil

/-! ## Blocks -/

variable (C)

/-- Whether what is written for the parts of a block corresponds. -/
structure Body (b : Block) : Prop where
  covered : C.Covers b
  nodes : ∀ {σ τ : Scene}, C.Compared σ.toAmbient τ.toAmbient → ∃ next own, (b.Muted → own = []) ∧
    Parallel (σ.enter b 0) (τ.enter b 0) (Listing.blockNodes b.plan) (Listing.blockNodes b.plan)
      (C.Rel σ.toAmbient τ.toAmbient own) (σ.enter b next) (τ.enter b next)
  operations : C.Steady (b.operations.flatMap Operation.caught) (Listing.operations b.operations)
  effects : ∀ e ∈ b.effects, ∀ op ∈ e.operations, C.Steady op.caught (Listing.ownOperation (some op))

/-- Whether the code of loops corresponds if that of their bodies does. -/
def Loops : Prop := ∀ l : LoopPlan, C.Body l.render → C.Steady [] (Listing.loop l)

variable {C} {b : Block}

theorem steady_operations {ops : List Operation}
    (h : ∀ op ∈ ops, C.Steady op.caught (Listing.ownOperation (some op))) :
    C.Steady (ops.flatMap Operation.caught) (Listing.operations ops) := by
  induction ops with
  | nil =>
    rw [Listing.operations]
    exact steady_nil
  | cons op ops ih =>
    rw [Listing.operations_cons]
    exact (h op List.mem_cons_self).bind_append (ih fun op hop => h op (List.mem_cons_of_mem _ hop))

theorem steady_effectOperations (test : List Expression → Bool) {effects : List Effect}
    (h : ∀ e ∈ effects, ∀ op ∈ e.operations, C.Steady op.caught (Listing.ownOperation (some op))) :
    C.Steady ((Listing.operationsWhere test effects).flatMap Operation.caught)
      (Listing.effectOperations test effects) := by
  rw [Listing.effectOperations_eq]
  exact steady_operations (Listing.forall_mem_operationsWhere h test)

theorem frames_selector (id index : Nat) :
    Listing.Frames [.newline, .text (Code.selectorName id index ++ "(() => \x7b"), .fragment .indent]
      [.fragment .dedent, .newline, .text "\x7d)"] :=
  ⟨rfl, rfl, fun level => ⟨level + 1, rfl, rfl⟩⟩

theorem steady_selectorEffects (id : Nat) (test : List Expression → Bool) (index : Nat)
    {effects : List Effect}
    (h : ∀ e ∈ effects, ∀ op ∈ e.operations, C.Steady op.caught (Listing.ownOperation (some op))) :
    C.Steady ((Listing.operationsWhere test effects).flatMap Operation.caught)
      (Listing.selectorEffects id test index effects) := by
  induction effects generalizing index with
  | nil =>
    rw [Listing.selectorEffects]
    exact steady_nil
  | cons e effects ih =>
    obtain ⟨expressions, ops⟩ := e
    have hops := steady_operations (h _ List.mem_cons_self)
    have ih := fun index => ih index fun e he => h e (List.mem_cons_of_mem _ he)
    intro σ τ hst
    rw [Listing.selectorEffects]
    unfold Listing.operationsWhere at ih ⊢
    rw [List.filter_cons]
    split
    · rw [List.flatMap_cons, List.flatMap_append]
      refine (hops hst).bind fun _ code code' hcode => (ih (index + 1) hst).bind fun _ rest rest' hrest => ?_
      have hcall := C.append (C.framed (frames_selector id index) hcode) hrest
      simp only [List.append_assoc] at hcall
      exact .pure (C.events hcall (by simp))
    · exact ih index hst

namespace Body

theorem blockBody (hb : C.Body b) (root : Bool) (h : C.Compared σ.toAmbient τ.toAmbient) :
    ∃ own, b.Owns own ∧ Parallel σ τ (Listing.blockBody root b) (Listing.blockBody root b)
      (C.Rel σ.toAmbient τ.toAmbient own) σ τ := by
  obtain ⟨next, own, hmuted, hnodes⟩ := hb.nodes h
  have hops := hb.operations
  have heffects := steady_effectOperations (fun _ => true) hb.effects
  have hsetter : C.Steady [] (referenceSetter root) := steady_of_settles (settled_referenceSetter root)
  have hin : ∀ next, C.Scenes (σ.enter b next) (τ.enter b next) := fun _ => ⟨h, rfl⟩
  refine ⟨own ++ (b.operations.flatMap Operation.caught ++
    (Listing.operationsWhere (fun _ => true) b.effects).flatMap Operation.caught), fun hb e => ?_, ?_⟩
  · simp [hmuted hb, Listing.operationsWhere, Block.caught]
  cases b
  rw [Listing.blockBody]
  refine .withBlock next ?_
  refine (hsetter (hin 0)).bind fun _ setter setter' hset => hnodes.bind fun _ nodes nodes' hnodes => ?_
  refine (hops (hin next)).bind fun _ code code' hcode => ?_
  refine (heffects (hin next)).bind fun _ effects effects' heff => ?_
  refine (parallel_rerun heff).bind fun _ effects effects' heff => .pure ?_
  refine C.behind (C.events (C.append (C.append (C.append hset hnodes) hcode) heff) ?_)
    (Listing.plain_returning _)
  simp

theorem loopBody (hb : C.Body b) (id : Nat) (kind : List Expression → LoopEffect)
    (h : C.Compared σ.toAmbient τ.toAmbient) :
    ∃ own, b.Owns own ∧ Parallel σ τ (Listing.loopBody id kind b) (Listing.loopBody id kind b)
      (C.Rel σ.toAmbient τ.toAmbient own) σ τ := by
  obtain ⟨next, own, hmuted, hnodes⟩ := hb.nodes h
  have hops := hb.operations
  have hregular := steady_effectOperations (fun es => kind es == .regular) hb.effects
  have hselected := steady_selectorEffects id (fun es => (kind es).value?.isSome) 0 hb.effects
  have hfixed := steady_effectOperations (fun es => kind es == .keyOnly) hb.effects
  have hin : C.Scenes (σ.enter b next) (τ.enter b next) := ⟨h, rfl⟩
  refine ⟨own ++ (b.operations ++ b.effects.flatMap Effect.operations).flatMap Operation.caught,
    fun hb e => by rw [hmuted hb]; rfl, ?_⟩
  have hkinds := fun e => ((Listing.operationsWhere_perm kind b.effects).flatMap_right
    Operation.caught).mem_iff (a := e)
  cases b
  rw [Listing.loopBody]
  refine .withBlock next ?_
  refine hnodes.bind fun _ nodes nodes' hnodes => (hops hin).bind fun _ code code' hcode => ?_
  refine (hregular hin).bind fun _ regular regular' hreg => ?_
  refine (parallel_rerun hreg).bind fun _ regular regular' hreg => ?_
  refine (hselected hin).bind fun _ selected selected' hsel => ?_
  refine (hfixed hin).bind fun _ fixed fixed' hfix => .pure ?_
  refine C.behind (C.events (C.append (C.append (C.append (C.append hnodes hcode) hreg) hsel) hfix)
    fun e => ?_) (Listing.plain_returning _)
  have hkinds := hkinds e
  simp only [List.flatMap_append, List.mem_append] at hkinds
  simp [← hkinds, or_assoc]

theorem function (hb : C.Body b) (root : Bool) (h : C.Scenes σ τ) :
    Parallel σ τ (Listing.blockBody root b) (Listing.blockBody root b)
      (fun events body body' =>
        C.Rel σ.toAmbient τ.toAmbient [] events [.function [] body] [.function [] body']) σ τ := by
  obtain ⟨own, hown, l, l', events, hx, hy, hbody⟩ := hb.blockBody root h.1
  obtain rfl := hx.value
  obtain rfl := hy.value
  exact ⟨_, _, events, hx, hy, C.function h.1 .thunk hb.covered hown (.block root σ.blocks)
    (.block root τ.blocks) hbody⟩

theorem thunk {root : Bool} (hb : C.Body b) : C.Steady [] (Emit.thunk (Listing.blockBody root b)) :=
  fun _ _ h => (hb.function root h).bind fun _ _ _ hbody => .pure (C.events hbody (by simp))

theorem renderExpression (hb : C.Body b) : C.Steady [] (Emit.renderExpression b) := fun _ _ h =>
  (hb.function true h).bind fun _ _ _ hbody =>
    .pure (C.cons rfl (C.behind (C.events hbody (by simp)) (Listing.plain_text ")()")))

end Body

/-! ## Values of nodes -/

theorem yields_names (σ : Scene) : Yields names σ σ.names [] σ :=
  .of_delegates_eq (by rintro s rfl; exact ⟨rfl, rfl⟩) fun _ => rfl

/-- Where nothing is known of names, no references are looked for; none of them would be replaced. -/
theorem substitute_references (names : Renaming) (e : Expression) (references : List Script.Reference)
    (start stop : Nat) :
    (e.substitute names (if names.isEmpty then [] else references) start stop).1 =
      (e.substitute names references start stop).1 := by
  split
  · next hempty =>
    have hnil : names.Alike [] := by
      rw [List.isEmpty_iff.mp hempty]
      exact .refl []
    rw [Expression.substitute, e.substituteFrom_of_alike_nil hnil, Expression.substitute,
      e.substituteFrom_of_alike_nil hnil]
  · rfl

theorem yields_nestedReferences (σ : Scene) (e : Expression) :
    Yields (nestedReferences e) σ
      (if σ.names.isEmpty then [] else (Script.references? e.content).getD []) [] σ := by
  refine .bind_of_nil (yields_names σ) ?_
  split <;> exact .pure σ _

theorem parallel_nestedExpression (h : C.Scenes σ τ) {e : Expression}
    {references references' : List Script.Reference}
    (hsame : ∀ start stop, (e.substitute σ.names references start stop).1 =
      (e.substitute τ.names references' start stop).1) (last : Nat) {blocks : List NestedBlock}
    (hb : ∀ b ∈ NestedBlock.blocksIn [e] blocks, C.Body b) :
    Parallel σ τ (Listing.nestedExpression e references last blocks)
      (Listing.nestedExpression e references' last blocks) (C.Rel σ.toAmbient τ.toAmbient []) σ τ := by
  induction blocks generalizing last with
  | nil =>
    rw [Listing.nestedExpression, Listing.nestedExpression]
    refine .after (yields_names σ) (yields_names τ) ?_
    rw [hsame]
    exact .pure (C.ofCode (e.isLevel_substitute _ _ _ _))
  | cons block blocks ih =>
    obtain ⟨start, stop, b⟩ := block
    simp only [NestedBlock.blocksIn, List.any_cons, List.any_nil, Bool.or_false,
      List.mem_append] at hb
    have ih := fun last => ih last fun b hm => hb b (Or.inr hm)
    rw [Listing.nestedExpression, Listing.nestedExpression]
    split
    · next hin =>
      have hself : C.Body b := hb b (Or.inl (by simp [hin]))
      refine .after (yields_names σ) (yields_names τ) ?_
      rw [hsame]
      refine (hself.thunk h).bind fun _ code code' hcode => (ih _).bind fun _ rest rest' hrest => .pure ?_
      exact C.events (C.append (C.append (C.ofCode (e.isLevel_substitute _ _ _ _)) (C.cons rfl hcode))
        (C.cons rfl hrest)) (by simp)
    · exact ih last

theorem steady_nodeValue (once : Bool) {blocks : List NestedBlock} {e : Expression}
    (hb : ∀ b ∈ NestedBlock.blocksIn [e] blocks, C.Body b) :
    C.Steady [] (nodeValue once blocks
      (fun e references => Listing.nestedExpression e references 0 blocks) e) := by
  intro σ τ h
  have hrest : ∀ events code code', C.Rel σ.toAmbient τ.toAmbient [] events code code' →
      Parallel σ τ (pure (if once || e.isStatic || e.isConstant then code else code.getter))
        (pure (if once || e.isStatic || e.isConstant then code' else code'.getter))
        (fun more => C.Rel σ.toAmbient τ.toAmbient [] (events ++ more)) σ τ := by
    intro events code code' hcode
    rw [← List.append_nil events] at hcode
    refine .pure ?_
    split
    · exact hcode
    · exact C.getter hcode
  unfold nodeValue
  cases blocks.any fun b => isInside e b.start b.stop with
  | true =>
    refine .after (yields_nestedReferences σ e) (yields_nestedReferences τ e) <|
      (parallel_nestedExpression h (fun start stop => ?_) 0 hb).bind hrest
    rw [substitute_references, substitute_references]
    exact congrArg Prod.fst (e.substituteFrom_congr h.matches.names start stop start _)
  | false =>
    have hcode : C.Steady [] (Listing.ofCode <$> expression e) := steady_of_settles <|
      (settled_expression e).bind fun _ hcode => Settled.pure (Listing.plain_ofCode hcode)
    exact (hcode h).bind hrest

theorem parallel_nodeValues (h : C.Scenes σ τ) (once : Bool) {blocks : List NestedBlock}
    {values : List Expression} (hb : ∀ b ∈ NestedBlock.blocksIn values blocks, C.Body b) :
    let x := values.mapM <|
      nodeValue once blocks fun e references => Listing.nestedExpression e references 0 blocks
    Parallel σ τ x x (Each (C.Rel σ.toAmbient τ.toAmbient [])) σ τ := by
  refine .mapM fun e he => steady_nodeValue once (fun b hm => hb b ?_) h
  exact NestedBlock.mem_blocksIn.mpr ⟨e, he, hm⟩

/-! ## Conditions -/

theorem flag (on : Bool) (text : String) :
    Maybe (C.Rel κ κ' []) [] (if on then some [.text text] else none)
      (if on then some [.text text] else none) := by
  split
  · exact .some (C.flat (Listing.plain_text text))
  · exact .none

mutual

theorem steady_branch : ∀ {c : Branch}, (∀ b ∈ c.blocks, C.Body b) → C.Steady [] (Listing.branch c)
  | ⟨id, condition, positive, negative, once⟩, hb => by
    rw [Branch.blocks] at hb
    intro σ τ h
    rw [Listing.branch]
    refine ((hb positive (by simp)).thunk h).bind fun _ pos pos' hpos =>
      (parallel_otherwise (fun b hm => hb b (List.mem_append_right _ hm)) h).bind fun _ neg neg' hneg => ?_
    refine (settled_expression condition).follow h.matches fun code hcode => parallel_callWith _ ?_
    exact C.events (C.callWithBlanks _ _ (.cons (.some (C.ofCode hcode.getter)) (.cons (.some hpos)
      (.cons hneg (.cons (flag once "true") .nil))))) (by simp)

theorem parallel_otherwise : ∀ {o : Option Otherwise}, (∀ b ∈ Otherwise.blocksOf? o, C.Body b) →
    ∀ {σ τ : Scene}, C.Scenes σ τ → Parallel σ τ (Listing.otherwise o) (Listing.otherwise o)
      (Maybe (C.Rel σ.toAmbient τ.toAmbient [])) σ τ
  | none, _, _, _, _ => by
    rw [Listing.otherwise]
    exact .pure .none
  | some (.block b), hb, _, _, h => by
    rw [Otherwise.blocksOf?] at hb
    rw [Listing.otherwise]
    exact ((hb b (by simp)).thunk h).bind fun _ _ _ hcode => .pure (.some (C.events hcode (by simp)))
  | some (.branch c), hb, _, _, h => by
    rw [Otherwise.blocksOf?] at hb
    rw [Listing.otherwise]
    exact (steady_branch hb h).bind fun _ _ _ hcode =>
      .pure (.some (C.cons rfl (C.events hcode (by simp))))

end

/-! ## Slots -/

/-- The function of a slot, possibly inside a callback that has variables of its own. -/
theorem parallel_slotBody {body : SlotBody} (hb : ∀ b ∈ body.blocks, C.Body b)
    (h : C.Compared σ.toAmbient τ.toAmbient) (entries : List (String × Option String))
    (hopens : ((FunctionScope.ofSlot σ.depth body.pattern).behind entries).Opens σ.depth) :
    Parallel (σ.push entries) (τ.push entries) (Listing.slotBody body) (Listing.slotBody body)
      (C.Rel σ.toAmbient τ.toAmbient []) (σ.push entries) (τ.push entries) := by
  obtain ⟨b, pattern⟩ := body
  rw [SlotBody.blocks] at hb
  have hbody := hb b List.mem_cons_self
  have hopened := hopens
  generalize hf : (FunctionScope.ofSlot σ.depth pattern).behind entries = f at hopened
  generalize hscope : SlotScope.of σ.depth pattern = scope
  have hparameters : f.parameters = scope.parameter.toList := by rw [← hf, ← hscope]; rfl
  -- the scene in which the body is written
  have hscene : ∀ ρ : Scene, (Scene.inSlot scope (ρ.push entries)).push scope.names =
      ⟨f.inside ρ.toAmbient, ρ.blocks⟩ := by
    intro ρ
    rw [← hf, FunctionScope.inside_behind, FunctionScope.ofSlot, hscope]
    unfold Scene.inSlot FunctionScope.inside
    cases scope.numbered <;> rfl
  have hcode : Parallel ((Scene.inSlot scope (σ.push entries)).push scope.names)
      ((Scene.inSlot scope (τ.push entries)).push scope.names) (Listing.blockBody false b)
      (Listing.blockBody false b)
      (fun events body body' => C.Rel σ.toAmbient τ.toAmbient [] events [.function f.parameters body]
        [.function f.parameters body'])
      ((Scene.inSlot scope (σ.push entries)).push scope.names)
      ((Scene.inSlot scope (τ.push entries)).push scope.names) := by
    rw [hscene, hscene]
    obtain ⟨own, hown, l, l', events, hx, hy, hrel⟩ :=
      hbody.blockBody (σ := ⟨f.inside σ.toAmbient, σ.blocks⟩) (τ := ⟨f.inside τ.toAmbient, τ.blocks⟩)
        false (C.inside h hopened)
    obtain rfl := hx.value
    obtain rfl := hy.value
    exact ⟨_, _, events, hx, hy, C.function h hopened hbody.covered hown (.block false σ.blocks)
      (.block false τ.blocks) hrel⟩
  have hσ := yields_enterSlot (σ.push entries) pattern
  have hτ := yields_enterSlot (τ.push entries) pattern
  rw [show (σ.push entries).depth = σ.depth from rfl, hscope] at hσ
  rw [show (τ.push entries).depth = σ.depth from (C.alike h).depth.symm, hscope] at hτ
  rw [Listing.slotBody]
  refine .after hσ hτ ?_
  rw [← hparameters]
  refine hcode.withNames.bind fun _ body body' hrel => ?_
  exact .after (yields_exitSlot _ scope) (yields_exitSlot _ scope) (.pure (C.events hrel (by simp)))

theorem slotObject {name : Code} (hname : name.IsLevel) {body body' : Listing}
    (h : C.Rel κ κ' [] events body body') :
    C.Rel κ κ' [] events (Listing.slotObject name body) (Listing.slotObject name body') :=
  C.events (C.list _ (.cons (C.cons rfl (C.ofCode hname)) (.cons (C.cons rfl h) .nil))) (by simp)

theorem isLevel_parameters (head : LoopHead) : head.parameters.IsLevel := by
  refine .list _ fun c hc => ?_
  obtain ⟨name, -, rfl⟩ := List.mem_map.mp hc
  exact Code.isLevel_text name

mutual

theorem steady_dynamicSlot : ∀ {slot : DynamicSlot}, (∀ b ∈ slot.blocks, C.Body b) →
    C.Steady [] (Listing.dynamicSlot slot)
  | .single name body, hb => by
    rw [DynamicSlot.blocks] at hb
    intro σ τ h
    rw [Listing.dynamicSlot]
    refine (settled_expression name).follow h.matches fun name hname => ?_
    refine (parallel_slotBody hb h.1 [] (.slot body.pattern)).bind fun _ body body' hbody => ?_
    exact .pure (slotObject hname (C.events hbody (by simp)))
  | .loop name body head, hb => by
    rw [DynamicSlot.blocks] at hb
    intro σ τ h
    rw [Listing.dynamicSlot]
    refine (settled_expression head.source).follow h.matches fun source hsource => ?_
    have hslot : Parallel (σ.push head.shadows) (τ.push head.shadows)
        (do
          let name ← expression name
          let body ← Listing.slotBody body
          return Listing.slotObject name body)
        (do
          let name ← expression name
          let body ← Listing.slotBody body
          return Listing.slotObject name body) (C.Rel σ.toAmbient τ.toAmbient [])
        (σ.push head.shadows) (τ.push head.shadows) := by
      refine (settled_expression name).follow (h.matches.push head.shadows) fun name hname => ?_
      refine (parallel_slotBody hb h.1 head.shadows (.loopSlot head body.pattern)).bind
        fun _ body body' hbody => ?_
      exact .pure (slotObject hname (C.events hbody (by simp)))
    refine hslot.withNames.bind fun _ slot slot' hslot => parallel_callWith _ ?_
    have hcallback := C.behind (C.append (C.ofCode (isLevel_parameters head))
      (C.cons (p := .text " => (") rfl hslot)) (Listing.plain_text ")")
    exact C.events (C.callWithBlanks _ _ (.cons (.some (C.ofCode hsource))
      (.cons (.some hcallback) .nil))) (by simp)
  | .conditional condition positive negative, hb => by
    rw [DynamicSlot.blocks] at hb
    intro σ τ h
    rw [Listing.dynamicSlot]
    refine (settled_expression condition).follow h.matches fun condition hcondition => ?_
    refine (steady_dynamicSlot (fun b hm => hb b (List.mem_append_left _ hm)) h).bind
      fun _ positive positive' hpos => ?_
    refine (steady_otherSlot (fun b hm => hb b (List.mem_append_right _ hm)) h).bind
      fun _ negative negative' hneg => .pure ?_
    have hframe : Listing.Frames [.fragment .indent, .newline, .text "? "] [.fragment .dedent] :=
      ⟨rfl, rfl, fun level => ⟨level + 1, rfl, rfl⟩⟩
    have hchoice := C.append (C.ofCode hcondition) (C.framed hframe
      (C.append hpos (C.cons (p := .newline) rfl (C.cons (p := .text ": ") rfl hneg))))
    simp only [List.append_assoc] at hchoice ⊢
    exact C.events hchoice (by simp)

theorem steady_otherSlot : ∀ {slot : Option DynamicSlot},
    (∀ b ∈ DynamicSlot.blocksOf? slot, C.Body b) → C.Steady [] (Listing.otherSlot slot)
  | none, _ => by
    rw [Listing.otherSlot]
    exact fun _ _ _ => .pure (C.flat (Listing.plain_text _))
  | some slot, hb => by
    rw [DynamicSlot.blocksOf?] at hb
    rw [Listing.otherSlot]
    exact steady_dynamicSlot hb

end

theorem parallel_namedSlots (h : C.Scenes σ τ) {slots : List NamedSlot}
    (hb : ∀ b ∈ NamedSlot.blocksOf slots, C.Body b) :
    Parallel σ τ (Listing.namedSlots slots) (Listing.namedSlots slots)
      (Each (C.Rel σ.toAmbient τ.toAmbient [])) σ τ := by
  induction slots with
  | nil =>
    rw [Listing.namedSlots]
    exact .pure .nil
  | cons slot slots ih =>
    obtain ⟨name, body⟩ := slot
    rw [NamedSlot.blocksOf] at hb
    rw [Listing.namedSlots]
    refine (parallel_slotBody (fun b hm => hb b (List.mem_append_left _ hm)) h.1 []
      (.slot body.pattern)).bind fun _ code code' hcode => ?_
    refine (ih fun b hm => hb b (List.mem_append_right _ hm)).bind fun more rest rest' hrest => ?_
    rw [← List.append_nil more] at hrest
    exact .pure (.cons (C.cons rfl hcode) hrest)

theorem parallel_slotPart (h : C.Scenes σ τ) {group : SlotGroup} (hb : ∀ b ∈ group.blocks, C.Body b) :
    Parallel σ τ (Listing.slotPart group) (Listing.slotPart group)
      (C.PartRel σ.toAmbient τ.toAmbient) σ τ := by
  cases group with
  | fixed slots =>
    rw [SlotGroup.blocks] at hb
    rw [Listing.slotPart]
    refine (parallel_namedSlots h hb).bind fun _ _ _ hentries => .pure (.named ?_)
    rwa [List.append_nil]
  | dynamic slot =>
    rw [SlotGroup.blocks] at hb
    rw [Listing.slotPart]
    exact (steady_dynamicSlot hb h).bind fun _ _ _ hcode =>
      .pure (.source (C.getter (C.events hcode (by simp))))
  | object value =>
    rw [Listing.slotPart]
    exact (settled_expression value).follow h.matches fun code hcode => .pure (.source (C.ofCode hcode))

theorem parallel_slotParts (h : C.Scenes σ τ) {groups : List SlotGroup}
    (hb : ∀ b ∈ SlotGroup.blocksOf groups, C.Body b) :
    Parallel σ τ (Listing.slotParts groups) (Listing.slotParts groups)
      (Each (C.PartRel σ.toAmbient τ.toAmbient)) σ τ := by
  induction groups with
  | nil =>
    rw [Listing.slotParts]
    exact .pure .nil
  | cons group groups ih =>
    rw [SlotGroup.blocksOf] at hb
    rw [Listing.slotParts]
    refine (parallel_slotPart h fun b hm => hb b (List.mem_append_left _ hm)).bind
      fun _ part part' hpart => ?_
    refine (ih fun b hm => hb b (List.mem_append_right _ hm)).bind fun more rest rest' hrest => ?_
    rw [← List.append_nil more] at hrest
    exact .pure (.cons hpart hrest)

/-! ## Components and operations -/

theorem option_ofCode {code : Option Code} (h : ∀ c ∈ code, c.IsLevel) :
    Maybe (C.Rel κ κ' []) [] (code.map Listing.ofCode) (code.map Listing.ofCode) := by
  cases code with
  | none => exact .none
  | some code => exact .some (C.ofCode (h code rfl))

theorem steady_component {c : ComponentUse} (hb : ∀ b ∈ c.blocks, C.Body b) :
    C.Steady [] (Listing.component c) := by
  obtain ⟨id, tag, groups, slots, root, once, dynamic⟩ := c
  rw [ComponentUse.blocks] at hb
  intro σ τ h
  have hfallback : σ.options.withFallback = τ.options.withFallback := (C.alike h.1).withFallback
  rw [Listing.component]
  refine (settled_componentTag tag dynamic).follow h.matches fun tag htag => ?_
  refine (settled_componentProperties groups).follow h.matches fun properties hproperties => ?_
  refine (parallel_slotParts h hb).bind fun events parts parts' hparts => ?_
  have hcall := fun name => C.callWithBlanks "null" name (.cons (.some (C.ofCode htag))
    (.cons (option_ofCode hproperties) (.cons (C.slots hparts) (.cons (flag root "true")
      (.cons (flag once "true") .nil)))))
  refine .get (fun s hs => by rw [← hs]; rfl) (fun s hs => by rw [← hs]; rfl) ?_
  rw [show σ.start.options = σ.options from rfl, show τ.start.options = τ.options from rfl, hfallback]
  refine (parallel_callWith (Q := fun more => C.Rel σ.toAmbient τ.toAmbient [] (events ++ more)) _
    (C.events (hcall _) (by simp))).bind fun _ call call' hcall => ?_
  refine (settled_directivesOf id).follow h.matches fun directives hdirectives => .pure ?_
  exact C.behind (C.cons rfl (C.cons rfl (C.events hcall (by simp)))) hdirectives

theorem steady_operation (hloops : C.Loops) {op : Operation} (hb : ∀ b ∈ op.blocks, C.Body b) :
    C.Steady op.caught (Listing.operation op) := by
  cases op with
  | setNodes e values blocks once generated =>
    rw [Operation.blocks] at hb
    intro σ τ h
    rw [Listing.operation]
    refine (parallel_nodeValues h once hb).bind fun events values values' hvalues => ?_
    have hargs := hvalues.map fun _ _ _ => Maybe.some
    refine (parallel_callWith (Q := fun more => C.Rel σ.toAmbient τ.toAmbient [] (events ++ more)) _
      (C.events (C.callWithBlanks _ _ (.cons (.some (C.flat (Listing.plain_use _))) hargs))
        (by simp))).bind fun _ call call' hcall => .pure ?_
    exact C.cons rfl (C.events hcall (by simp [Operation.caught]))
  | createNodes id values blocks once into =>
    rw [Operation.blocks] at hb
    intro σ τ h
    rw [Listing.operation]
    refine (parallel_nodeValues h once hb).bind fun events values values' hvalues => ?_
    have hargs := hvalues.map fun _ _ _ => Maybe.some
    refine (parallel_callWith (Q := fun more => C.Rel σ.toAmbient τ.toAmbient [] (events ++ more)) _
      (C.events (C.callWithBlanks _ _ hargs) (by simp))).bind fun _ call call' hcall => .pure ?_
    exact C.cons rfl (C.cons rfl (C.events hcall (by simp [Operation.caught])))
  | branch c into =>
    rw [Operation.blocks] at hb
    intro σ τ h
    rw [Listing.operation]
    refine (steady_branch hb h).bind fun _ call call' hcall => .pure ?_
    exact C.cons rfl (C.cons rfl (C.events hcall (by simp [Operation.caught])))
  | loop l into =>
    obtain ⟨id, head, keyProperty, render, once, component, onlyChild⟩ := l
    rw [Operation.blocks, LoopPlan.blocks] at hb
    rw [Listing.operation]
    exact hloops _ (hb render List.mem_cons_self)
  | component c into =>
    rw [Operation.blocks] at hb
    rw [Listing.operation]
    exact steady_component hb
  | _ => exact steady_of_settles (settles_operation rfl)

theorem steady_ownOperation (hloops : C.Loops) {op : Operation} (hb : ∀ b ∈ op.blocks, C.Body b) :
    C.Steady op.caught (Listing.ownOperation (some op)) := by
  rw [Listing.ownOperation]
  exact (steady_of_settles (settled_insertionState _)).bind_append (steady_operation hloops hb)

/-! ## Nodes -/

variable (C)

/-- Whether what was found is related. The ways to nodes are the same. -/
structure FoundRel (κ κ' : Ambient) (own events : List String) (found found' : Found) : Prop where
  ways : found.ways = found'.ways
  plain : found.ways.Plain
  code : C.Rel κ κ' own events found.code found'.code

variable {C}

namespace FoundRel

theorem nothing : C.FoundRel κ κ' [] [] .nothing .nothing := ⟨rfl, Listing.Plain.nil, C.nil⟩

theorem of_code {ways : Listing} (hways : ways.Plain) (h : C.Rel κ κ' own events l l') :
    C.FoundRel κ κ' own events ⟨ways, l⟩ ⟨ways, l'⟩ :=
  ⟨rfl, hways, h⟩

theorem append {events' : List String} {found found' rest rest' : Found}
    (h : C.FoundRel κ κ' own events found found') (hrest : C.FoundRel κ κ' own' events' rest rest') :
    C.FoundRel κ κ' (own ++ own') (events ++ events') (found.append rest) (found'.append rest') where
  ways := congrArg₂ (· ++ ·) h.ways hrest.ways
  plain := Listing.Plain.append h.plain hrest.plain
  code := C.append h.code hrest.code

theorem all {found found' : Found} (h : C.FoundRel κ κ' own events found found') :
    C.Rel κ κ' own events found.all found'.all := by
  unfold Found.all
  rw [← h.ways]
  exact C.append (C.flat h.plain) h.code

theorem same {events' : List String} {found found' : Found} (h : C.FoundRel κ κ' own events found found')
    (hsame : ∀ e, (e ∈ own ↔ e ∈ own') ∧ (e ∈ events ↔ e ∈ events')) :
    C.FoundRel κ κ' own' events' found found' :=
  ⟨h.ways, h.plain, C.events h.code hsame⟩

end FoundRel

/-- Whether two searches in a block give related results. Temporary variables may be used up, the same
ones in both. The events are none if the nodes of the block catch none. -/
def Searching {α : Type} (σ τ : Scene) (b : Block) (x y : Emit α)
    (Q : List String → List String → α → α → Prop) : Prop :=
  ∀ next, ∃ next' own, (b.Muted → own = []) ∧
    Parallel (σ.enter b next) (τ.enter b next) x y (Q own) (σ.enter b next') (τ.enter b next')

namespace Searching

variable {α β : Type} {Q : List String → List String → α → α → Prop}
  {Q' : List String → List String → β → β → Prop} {x y : Emit α} {f g : α → Emit β}

theorem pure {a a' : α} (h : Q [] [] a a') : Searching σ τ b (Pure.pure a) (Pure.pure a') Q :=
  fun next => ⟨next, [], fun _ => rfl, .pure h⟩

theorem bind (h : Searching σ τ b x y Q) (hf : ∀ own events a a', Q own events a a' →
      Searching σ τ b (f a) (g a') fun own' more => Q' (own ++ own') (events ++ more)) :
    Searching σ τ b (x >>= f) (y >>= g) Q' := by
  intro next
  obtain ⟨next₁, own, hown, a, a', events, hx, hy, ha⟩ := h next
  obtain ⟨next₂, own', hown', c, c', events', hx', hy', hc⟩ := hf own events a a' ha next₁
  exact ⟨next₂, own ++ own', fun hb => by rw [hown hb, hown' hb, List.append_nil], c, c', events ++ events',
    hx.bind hx', hy.bind hy', hc⟩

theorem follow {P : α → Prop} (h : σ.toAmbient.Matches τ.toAmbient) (hx : Settled P x)
    (hf : ∀ a, P a → Searching σ τ b (f a) (g a) Q') : Searching σ τ b (x >>= f) (x >>= g) Q' := by
  intro next
  obtain ⟨a, hσ, hτ, ha⟩ := hx (σ.enter b next) (τ.enter b next) ⟨h, rfl⟩
  obtain ⟨next', own, hown, hrest⟩ := hf a ha next
  exact ⟨next', own, hown, .after hσ hτ hrest⟩

end Searching

theorem yields_temporary (ρ : Scene) (next : Nat) :
    Yields temporary (ρ.enter b next) next [] (ρ.enter b (next + 1)) := by
  intro s hs
  have hblocks : s.blocks = (b, next) :: ρ.blocks := congrArg Scene.blocks hs
  have hrun : temporary s = (next, { s with blocks := (b, next + 1) :: ρ.blocks }) := by
    simp [temporary, hblocks]
  rw [hrun]
  refine ⟨rfl, ?_, fun e => by simp, id⟩
  calc ({ s with blocks := (b, next + 1) :: ρ.blocks } : Emitter).scene
      = { s.scene with blocks := (b, next + 1) :: ρ.blocks } := rfl
    _ = ρ.enter b (next + 1) := by rw [hs]; rfl

theorem searching_variableOf (target : Option Nat) :
    Searching σ τ b (variableOf target) (variableOf target)
      fun own events v v' => own = [] ∧ events = [] ∧ v = v' := by
  cases target with
  | some id => exact .pure ⟨rfl, rfl, rfl⟩
  | none =>
    intro next
    exact ⟨next + 1, [], fun _ => rfl, .after (yields_temporary σ next) (yields_temporary τ next)
      (.pure ⟨rfl, rfl, rfl⟩)⟩

theorem searching_below {find : Variable → Emit Found}
    (hfind : ∀ v, Searching σ τ b (find v) (find v) (C.FoundRel σ.toAmbient τ.toAmbient))
    (id : Option Nat) :
    Searching σ τ b (below id find) (below id find) (C.FoundRel σ.toAmbient τ.toAmbient) := by
  cases id with
  | none => exact .pure .nothing
  | some id => exact hfind (.node id)

theorem searching_findUnder
    (hfind : ∀ n ∈ ns, ∀ v, Searching σ τ b (Listing.findIn v n) (Listing.findIn v n)
      (C.FoundRel σ.toAmbient τ.toAmbient))
    (parents : List (Option Variable)) :
    Searching σ τ b (Listing.findUnder parents ns) (Listing.findUnder parents ns)
      (C.FoundRel σ.toAmbient τ.toAmbient) :=
  Listing.findUnder_induction (P := fun x => Searching σ τ b x x (C.FoundRel σ.toAmbient τ.toAmbient)) hfind
    (.pure .nothing) (fun hx hy => hx.bind fun _ _ _ _ hfound =>
      hy.bind fun _ _ _ _ hrest => .pure ((hfound.append hrest).same (by simp))) parents

theorem Steady.searching {x : Emit Listing} (h : C.Compared σ.toAmbient τ.toAmbient)
    (hx : C.Steady own x) (hown : b.Muted → own = []) :
    Searching σ τ b x x (C.Rel σ.toAmbient τ.toAmbient) :=
  fun next => ⟨next, own, hown, hx ⟨h, rfl⟩⟩

variable (C) in
/-- Whether what is written where a node is made is related. -/
def Made (σ τ : Scene) (b : Block) (n : NodePlan) : Prop :=
  Searching σ τ b (Listing.makeNode n) (Listing.makeNode n) (C.Rel σ.toAmbient τ.toAmbient)

theorem searching_nodeWithMarkup (hmake : C.Made σ τ b n)
    (hfind : ∀ v, Searching σ τ b (Listing.findIn v n) (Listing.findIn v n)
      (C.FoundRel σ.toAmbient τ.toAmbient)) :
    Searching σ τ b (nodeWithMarkup n (Listing.makeNode n) fun v => Listing.findIn v n)
      (nodeWithMarkup n (Listing.makeNode n) fun v => Listing.findIn v n)
      (C.Rel σ.toAmbient τ.toAmbient) := by
  refine Searching.bind hmake fun _ _ code code' hcode => ?_
  refine (searching_below hfind _).bind fun _ _ found found' hfound => ?_
  exact .pure (C.events (C.append hcode hfound.all) (by simp))

theorem searching_findAmong (h : C.Compared σ.toAmbient τ.toAmbient) (hmake : ∀ n ∈ ns, C.Made σ τ b n)
    (hfind : ∀ n ∈ ns, ∀ v, Searching σ τ b (Listing.findIn v n) (Listing.findIn v n)
      (C.FoundRel σ.toAmbient τ.toAmbient))
    (parent : Variable) (position : Int) (previous : Option (Variable × Int)) :
    Searching σ τ b (Listing.findAmong parent position previous ns)
      (Listing.findAmong parent position previous ns)
      (fun own events r r' => C.FoundRel σ.toAmbient τ.toAmbient own events r.1 r'.1 ∧ r.2 = r'.2) := by
  induction ns generalizing position previous with
  | nil =>
    rw [Listing.findAmong]
    exact .pure ⟨.nothing, rfl⟩
  | cons n ns ih =>
    have hnode := searching_nodeWithMarkup (hmake n List.mem_cons_self) (hfind n List.mem_cons_self)
    have ih := ih (fun n hn => hmake n (List.mem_cons_of_mem _ hn))
      fun n hn => hfind n (List.mem_cons_of_mem _ hn)
    rw [Listing.findAmong]
    split
    · refine hnode.bind fun _ _ code code' hcode => (ih _ _).bind fun _ _ r r' hr => .pure ⟨?_, ?_⟩
      · exact ((FoundRel.of_code .nil hcode).append hr.1).same (by simp)
      · exact congrArg (List.cons _) hr.2
    · have hplaced : Searching σ τ b
          (atPlaceholder n (nodeWithMarkup n (Listing.makeNode n) fun v => Listing.findIn v n))
          (atPlaceholder n (nodeWithMarkup n (Listing.makeNode n) fun v => Listing.findIn v n))
          (C.Rel σ.toAmbient τ.toAmbient) := by
        unfold atPlaceholder
        split
        · exact hnode
        · exact .pure C.nil
      refine (searching_variableOf n.target).bind ?_
      rintro _ _ v _ ⟨rfl, rfl, rfl⟩
      refine .follow (C.alike h) (settled_find _ _) fun way hway => ?_
      refine hplaced.bind fun _ _ code code' hcode => ?_
      refine .follow (C.alike h) (settled_targetDirectives _) fun directives hdir => ?_
      refine (ih _ _).bind fun _ _ r r' hr => .pure ⟨?_, ?_⟩
      · exact ((FoundRel.of_code hway (C.behind hcode hdir)).append hr.1).same (by simp)
      · exact congrArg (List.cons _) hr.2

theorem searching_findIn (h : C.Compared σ.toAmbient τ.toAmbient) (hmake : ∀ m ∈ n.nodes, C.Made σ τ b m)
    (v : Variable) :
    Searching σ τ b (Listing.findIn v n) (Listing.findIn v n) (C.FoundRel σ.toAmbient τ.toAmbient) := by
  induction n using NodePlan.induction generalizing v with
  | node n ih =>
    have hchildren : ∀ c ∈ n.children, C.Made σ τ b c := fun c hc =>
      hmake c (NodePlan.mem_nodes_of_child hc c.self_mem_nodes)
    have hfind := fun c hc => ih c hc fun m hm => hmake m (NodePlan.mem_nodes_of_child hc hm)
    have hamong := searching_findAmong h hchildren hfind v 0 none
    have hunder := searching_findUnder hfind
    cases n
    rw [Listing.findIn]
    refine hamong.bind ?_
    rintro _ _ ⟨found, parents⟩ ⟨found', _⟩ ⟨hfound, rfl⟩
    exact (hunder parents).bind fun _ _ deeper deeper' hdeeper =>
      .pure ((hfound.append hdeeper).same (by simp))

theorem searching_findBelow (h : C.Compared σ.toAmbient τ.toAmbient)
    (hmake : ∀ n ∈ ns, ∀ m ∈ n.nodes, C.Made σ τ b m) :
    Searching σ τ b (Listing.findBelow ns) (Listing.findBelow ns) (C.Rel σ.toAmbient τ.toAmbient) := by
  induction ns with
  | nil =>
    rw [Listing.findBelow]
    exact .pure C.nil
  | cons n ns ih =>
    rw [Listing.findBelow]
    have hbelow := searching_below (searching_findIn h (hmake n List.mem_cons_self)) n.id
    refine hbelow.bind fun _ _ found found' hfound => ?_
    refine (ih fun n hn => hmake n (List.mem_cons_of_mem _ hn)).bind fun _ _ rest rest' hrest => ?_
    exact .pure (C.events (C.append hfound.all hrest) (by simp))

theorem searching_makeNodes (hmake : ∀ n ∈ ns, C.Made σ τ b n) :
    Searching σ τ b (Listing.makeNodes ns) (Listing.makeNodes ns) (C.Rel σ.toAmbient τ.toAmbient) := by
  induction ns with
  | nil =>
    rw [Listing.makeNodes]
    exact .pure C.nil
  | cons n ns ih =>
    rw [Listing.makeNodes]
    refine Searching.bind (hmake n List.mem_cons_self) fun _ _ code code' hcode => ?_
    refine (ih fun n hn => hmake n (List.mem_cons_of_mem _ hn)).bind fun _ _ rest rest' hrest => ?_
    exact .pure (C.events (C.append hcode hrest) (by simp))

theorem made_of_operation (h : C.Compared σ.toAmbient τ.toAmbient) (hloops : C.Loops)
    (hmuted : b.Muted → n.Muted) (hb : ∀ op, n.operation = some op → ∀ b' ∈ op.blocks, C.Body b') :
    C.Made σ τ b n := by
  have hclone : C.Steady [] (cloneNode n.id n.template) := steady_of_settles (settled_cloneNode _ _)
  have hmake : Listing.makeNode n = do
      let clone ← cloneNode n.id n.template
      let own ← Listing.ownOperation n.operation
      return clone ++ own := by
    cases n
    rw [Listing.makeNode]
  unfold Made
  rw [hmake]
  cases hop : n.operation with
  | none =>
    rw [Listing.ownOperation]
    exact (hclone.bind_append steady_nil).searching h fun _ => rfl
  | some op =>
    exact (hclone.bind_append (steady_ownOperation hloops (hb op hop))).searching h
      fun hm => hmuted hm op hop

/-! ## The main result -/

theorem body_of_inner (hloops : C.Loops) (hcovers : C.Covers b) (hin : ∀ b' ∈ b.inner, C.Body b') :
    C.Body b := by
  have hown : ∀ ops : List Operation, (∀ b' ∈ Operation.blocksOf ops, C.Body b') → ∀ op ∈ ops,
      C.Steady op.caught (Listing.ownOperation (some op)) := by
    intro ops hops op hop
    refine steady_ownOperation hloops fun b' hb' => hops b' ?_
    rw [Operation.blocksOf_eq_flatMap]
    exact List.mem_flatMap.mpr ⟨op, hop, hb'⟩
  refine ⟨hcovers, fun {σ τ} h => ?_, ?_, fun e he => ?_⟩
  · have hnode : ∀ n ∈ b.plan.children, ∀ m ∈ n.nodes, C.Made σ τ b m := by
      intro n hn m hm
      refine made_of_operation h hloops (fun hb => hb n hn m hm) fun op hop b' hb' => hin b' ?_
      rw [Block.inner_eq, List.mem_append, List.mem_append, List.mem_flatMap]
      exact Or.inl (Or.inl ⟨n, hn, NodePlan.mem_blocks_of_mem_nodes hm hop hb'⟩)
    have hmade := searching_makeNodes fun n hn => hnode n hn n n.self_mem_nodes
    have hfound := searching_findBelow h hnode
    have hnodes : Searching σ τ b (Listing.blockNodes b.plan) (Listing.blockNodes b.plan)
        (C.Rel σ.toAmbient τ.toAmbient) := by
      cases hplan : b.plan
      rw [hplan] at hmade hfound
      rw [Listing.blockNodes]
      refine hmade.bind fun _ _ made made' hmade => hfound.bind fun _ _ found found' hfound => ?_
      exact .pure (C.events (C.append hmade hfound) (by simp))
    exact hnodes 0
  · refine steady_operations (hown b.operations fun b' hb' => hin b' ?_)
    rw [Block.inner_eq]
    exact List.mem_append_left _ (List.mem_append_right _ hb')
  · refine hown e.operations fun b' hb' => hin b' ?_
    rw [Block.inner_eq, Effect.blocksOf_eq_flatMap]
    exact List.mem_append_right _ (List.mem_flatMap.mpr ⟨e, he, hb'⟩)

theorem body (hloops : C.Loops) (hcovers : ∀ b' ∈ b :: b.inner, C.Covers b') : C.Body b := by
  induction b using Block.induction with
  | block b ih =>
    refine body_of_inner hloops (hcovers b List.mem_cons_self) fun b' hb' => ih b' hb' fun b'' hb'' => ?_
    refine hcovers b'' ?_
    rcases List.mem_cons.mp hb'' with rfl | hb''
    · exact List.mem_cons_of_mem _ hb'
    · exact List.mem_cons_of_mem _ ((Block.inside b).inner b' hb' b'' hb'')

end Correspondence

end JsxTemplate
