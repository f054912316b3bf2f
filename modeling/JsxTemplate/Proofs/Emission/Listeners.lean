import JsxTemplate.Proofs.Emission.Generation
import JsxTemplate.Proofs.Lowering.Numbers

/-!
# Listeners at the document

A listener at the document is written as a field of its element, and so a second one for the same event
would take its place. The code of a block therefore has a field where there is one listener, and calls
where there are several (`Block.ListensIn`). To know how many there are, the code looks only at the
operations of the block itself; this is enough because nodes and effects never have such listeners
(`Block.Gathered`).
-/

namespace JsxTemplate

variable {op : Operation} {b : Block}

open Emit

def Operation.catches (element : Nat) (event : String) : Operation → Bool
  | .setEvent l => l.delegate && l.element == element && l.key.content == event
  | _ => false

namespace Block

variable (b : Block)

/-- All operations of a block: those that make nodes, its own, and those in effects. -/
def allOperations : List Operation :=
  b.plan.nodes.filterMap NodePlan.operation ++ b.operations ++ b.effects.flatMap Effect.operations

/-- How many listeners of a block catch an event of an element at the document. -/
def listenerCount (element : Nat) (event : String) : Nat :=
  b.allOperations.countP (Operation.catches element event)

/-- Whether only the operations of the block itself catch events at the document. -/
structure Gathered : Prop where
  nodes : ∀ n ∈ b.plan.nodes, n.Muted
  effects : ∀ e ∈ b.effects, ∀ op ∈ e.operations, op.caught = []

end Block

/-- A statement that adds a listener at the document as a field of an element. -/
def Listener.field (l : Listener) (code : Code) : Listing :=
  .newline :: .use (.node l.element) (".$evt" ++ l.key.content ++ " = ") :: Listing.ofCode code

/-- A statement that adds a listener at the document by a call. -/
def Listener.call (l : Listener) (name code : Code) : Listing :=
  .newline :: Listing.call "_delegate" [some (.use (.node l.element)), some (.ofCode name),
    some (.ofCode code), (Emit.listenerOptions l).map .ofCode]

/-- Whether the code of a block is right for its listeners at the document. The code of each operation of
the block stands in it in its turn; for a listener at the document, this is a field if there is no other
one for its element and event, and a call otherwise; and no other field is set. -/
def Block.ListensIn (b : Block) (body : Listing) : Prop :=
  (∃ (σ : Scene) (front back : Listing), σ.blocks.head?.map Prod.fst = some b ∧
    body = front ++ b.operations.flatMap σ.write ++ back ∧
    ∀ l, .setEvent l ∈ b.allOperations → l.delegate = true →
      σ.write (.setEvent l) =
        if b.listenerCount l.element l.key.content = 1 then
          l.field (handler l.value (some l.modifiers) false σ.start).1
        else
          l.call (eventName l σ.start).1 (handler l.value (some l.modifiers) false σ.start).1) ∧
  ∀ element event,
    b.listenerCount element event = b.operations.countP (Operation.catches element event) ∧
    body.fields.count (.node element, ".$evt" ++ event ++ " = ") =
      if b.listenerCount element event = 1 then 1 else 0

namespace Operation

theorem catches_eq_false (h : op.caught = []) (element : Nat) (event : String) :
    op.catches element event = false := by
  cases op with
  | setEvent l =>
    have hdelegate : l.delegate = false := by simpa [caught, Listener.caught] using h
    simp [catches, hdelegate]
  | _ => rfl

theorem mem_caught {event : String} :
    event ∈ op.caught ↔ ∃ element, op.catches element event = true := by
  cases op with
  | setEvent l =>
    cases hdelegate : l.delegate with
    | false => simp [caught, Listener.caught, catches, hdelegate]
    | true => simp [caught, Listener.caught, catches, hdelegate, eq_comm (a := event)]
  | _ => simp [caught, catches]

theorem caught_of_isBlock (h : op.isBlock = true) : op.caught = [] := by
  cases op with
  | setEvent l => cases h
  | _ => rfl

end Operation

namespace Block

variable {b : Block} {element : Nat} {event : String}

theorem Gathered.mem_allOperations (h : b.Gathered) (hop : op.caught ≠ []) :
    op ∈ b.allOperations ↔ op ∈ b.operations := by
  have hnodes : op ∉ b.plan.nodes.filterMap NodePlan.operation := by
    intro hmem
    obtain ⟨n, hn, hn'⟩ := List.mem_filterMap.mp hmem
    exact hop (h.nodes n hn op hn')
  have heffects : op ∉ b.effects.flatMap Effect.operations := by
    intro hmem
    obtain ⟨e, he, hop'⟩ := List.mem_flatMap.mp hmem
    exact hop (h.effects e he op hop')
  simp [allOperations, hnodes, heffects]

theorem Gathered.listenerCount_eq (h : b.Gathered) :
    b.listenerCount element event = b.operations.countP (Operation.catches element event) := by
  have hnodes :
      (b.plan.nodes.filterMap NodePlan.operation).countP (Operation.catches element event) = 0 := by
    refine List.countP_eq_zero.mpr fun op hop => ?_
    obtain ⟨n, hn, hn'⟩ := List.mem_filterMap.mp hop
    simp [Operation.catches_eq_false (h.nodes n hn op hn')]
  have heffects : (b.effects.flatMap Effect.operations).countP (Operation.catches element event) = 0 := by
    refine List.countP_eq_zero.mpr fun op hop => ?_
    obtain ⟨e, he, hop'⟩ := List.mem_flatMap.mp hop
    simp [Operation.catches_eq_false (h.effects e he op hop')]
  rw [listenerCount, allOperations, List.countP_append, List.countP_append, hnodes, heffects]
  omega

theorem Gathered.muted (h : b.Gathered) : b.Muted := fun _ hn m hm =>
  h.nodes m (NodePlan.mem_nodes_of_child hn hm)

theorem Gathered.mem_caught (h : b.Gathered) :
    event ∈ b.caught ↔ ∃ element, 0 < b.listenerCount element event := by
  have hcaught : event ∈ b.caught ↔ ∃ op ∈ b.operations, event ∈ op.caught := by
    rw [caught, List.flatMap_append, List.mem_append, List.mem_flatMap, List.mem_flatMap]
    refine or_iff_left ?_
    rintro ⟨op, hop, hevent⟩
    obtain ⟨e, he, hop⟩ := List.mem_flatMap.mp hop
    simp [h.effects e he op hop] at hevent
  simp only [hcaught, Operation.mem_caught, h.listenerCount_eq, List.countP_pos_iff]
  constructor
  · rintro ⟨op, hop, e, he⟩
    exact ⟨e, op, hop, he⟩
  · rintro ⟨e, op, hop, he⟩
    exact ⟨op, hop, e, he⟩

end Block

/-! ## What is written for a listener -/

namespace Scene

variable {σ : Scene} {b : Block}

theorem accounted_write (σ : Scene) (op : Operation) :
    Yields (Listing.ownOperation (some op)) σ (σ.write op)
      (Listing.ownOperation (some op) σ.start).2.delegates σ ∧ (op.caught = [] → (σ.write op).fields = []) := by
  have hsteady : (Correspondence.accounted fun _ => True).Steady op.caught
      (Listing.ownOperation (some op)) := Correspondence.steady_ownOperation Correspondence.accounted_loops
    fun _ _ => Correspondence.accounted_body fun _ _ => trivial
  obtain ⟨_, _, _, hx, -, -, h⟩ := hsteady (σ := σ) (τ := σ) ⟨rfl, rfl⟩
  obtain rfl := hx.value
  exact ⟨hx.congr_events hx.mem_delegates, h.fields⟩

theorem write_setEvent (hb : σ.blocks.head?.map Prod.fst = some b) {l : Listener}
    (hdelegate : l.delegate = true) :
    σ.write (.setEvent l) =
      if 1 < b.operations.countP (Operation.catches l.element l.key.content) then
        l.call (eventName l σ.start).1 (handler l.value (some l.modifiers) false σ.start).1
      else l.field (handler l.value (some l.modifiers) false σ.start).1 := by
  obtain ⟨name, hname, -⟩ := settled_eventName l σ σ (.refl σ)
  obtain ⟨code, hcode, -⟩ := settled_handler l.value (some l.modifiers) false σ σ (.refl σ)
  have hrival : hasRival l b =
      decide (1 < b.operations.countP (Operation.catches l.element l.key.content)) := rfl
  have hblock : Yields currentBlock σ (some b) [] σ :=
    .of_delegates_eq (by rintro s rfl; exact ⟨hb, rfl⟩) fun _ => rfl
  -- the state in which the block is looked up has the scene of the start
  have hrun : Yields (setEvent l) σ
      (if 1 < b.operations.countP (Operation.catches l.element l.key.content) then l.call name code
        else l.field code) [l.key.content] σ := by
    unfold setEvent
    refine .bind_of_nil hname (.bind_of_nil hcode ?_)
    rw [if_pos hdelegate]
    refine (yields_delegate σ _).bind (.bind_of_nil hblock ?_)
    rw [hdelegate, Option.any_some, hrival]
    by_cases hone : 1 < b.operations.countP (Operation.catches l.element l.key.content)
    · rw [if_pos hone, if_neg (by simp [hone])]
      exact .bind_of_nil (.bind_of_nil (yields_helper σ "delegate") (.pure σ _)) (.pure σ _)
    · rw [if_neg hone, if_pos (by simp [hone])]
      exact .pure σ _
  rw [hname.value, hcode.value, write, Listing.ownOperation]
  have hvalue := hrun.value
  rw [← Listing.operation] at hvalue
  exact hvalue

theorem fields_flatMap_write {ops : List Operation} (hops : ∀ op ∈ ops, op.caught = []) :
    Listing.fields (ops.flatMap σ.write) = [] := by
  rw [Listing.fields, List.flatMap_assoc]
  exact List.flatMap_eq_nil_iff.mpr fun op hop => (σ.accounted_write op).2 (hops op hop)

end Scene

namespace Listing

@[simp] theorem fields_ofCode (code : Code) : (ofCode code).fields = [] := by
  rw [fields, ofCode, List.flatMap_map]
  exact List.flatMap_eq_nil_iff.mpr fun _ _ => rfl

@[simp] theorem fields_nil : fields [] = [] := rfl

@[simp] theorem fields_use (v : Variable) : (use v).fields = [] := rfl

@[simp] theorem fields_call (name : String) (args : List (Option Listing)) :
    (call name args).fields = args.flatMap fun a => (a.getD []).fields :=
  flatMap_callWithBlanks (fun _ _ => rfl) "null" name args

@[simp] theorem fields_rerunOf (body : Listing) : (rerunOf body).fields = body.fields := by
  unfold rerunOf
  split
  · next hempty => rw [List.isEmpty_iff.mp hempty]
  · exact flatMap_effectFunction (f := Piece.fields) (fun _ _ => rfl) body

@[simp] theorem fields_selectorCalls (id index : Nat) (codes : List Listing) :
    (selectorCalls id index codes).fields = codes.flatMap fields := by
  induction codes generalizing index with
  | nil => rfl
  | cons code codes ih =>
    unfold selectorCalls at ih ⊢
    rw [List.zipIdx_cons, List.flatMap_cons, fields_append, ih, fields_append]
    exact congrArg (· ++ _) (List.append_nil _)

end Listing

theorem Listener.fields_field (l : Listener) (code : Code) :
    (l.field code).fields = [(.node l.element, ".$evt" ++ l.key.content ++ " = ")] := by
  have hdot : (".$evt" ++ l.key.content ++ " = ").toList.head? = some '.' := by simp
  change [] ++ ((if _ then [_] else []) ++ (Listing.ofCode code).fields) = _
  rw [if_pos hdot, Listing.fields_ofCode]
  rfl

theorem Listener.fields_call (l : Listener) (name code : Code) : (l.call name code).fields = [] := by
  change (Listing.call "_delegate" _).fields = []
  cases Emit.listenerOptions l <;> simp

namespace Scene

variable {σ : Scene} {b : Block} {element : Nat} {event : String}

theorem count_write (hb : σ.blocks.head?.map Prod.fst = some b) (hop : op ∈ b.operations) :
    (σ.write op).fields.count (.node element, ".$evt" ++ event ++ " = ") =
      if op.catches element event = true ∧
        b.operations.countP (Operation.catches element event) = 1 then 1 else 0 := by
  by_cases hcaught : op.caught = []
  · rw [(σ.accounted_write op).2 hcaught, Operation.catches_eq_false hcaught]
    rfl
  · cases op with
    | setEvent l =>
      have hdelegate : l.delegate = true := by simpa [Operation.caught, Listener.caught] using hcaught
      rw [write_setEvent hb hdelegate]
      by_cases hcatch : (Operation.setEvent l).catches element event = true
      · have hpos := List.countP_pos_iff.mpr ⟨_, hop, hcatch⟩
        obtain ⟨rfl, rfl⟩ : l.element = element ∧ l.key.content = event := by
          simpa [Operation.catches, hdelegate] using hcatch
        split
        · rw [Listener.fields_call, if_neg (by omega), List.count_nil]
        · rw [Listener.fields_field, if_pos ⟨hcatch, by omega⟩, List.count_singleton_self]
      · rw [if_neg (c := _ ∧ _) fun h => hcatch h.1]
        split
        · rw [Listener.fields_call, List.count_nil]
        · rw [Listener.fields_field, List.count_eq_zero, List.mem_singleton, Prod.mk.injEq]
          rintro ⟨hvariable, htext⟩
          have hevent : event.toList = l.key.content.toList := by simpa using congrArg String.toList htext
          refine hcatch ?_
          simp [Operation.catches, hdelegate, Variable.node.inj hvariable, String.toList_inj.mp hevent]
    | _ => exact absurd rfl hcaught

theorem count_flatMap_write (hb : σ.blocks.head?.map Prod.fst = some b) {ops : List Operation}
    (hops : ops ⊆ b.operations) :
    (Listing.fields (ops.flatMap σ.write)).count (.node element, ".$evt" ++ event ++ " = ") =
      if b.operations.countP (Operation.catches element event) = 1 then
        ops.countP (Operation.catches element event) else 0 := by
  induction ops with
  | nil => simp
  | cons op ops ih =>
    rw [List.flatMap_cons, Listing.fields_append, List.count_append,
      count_write hb (hops List.mem_cons_self), ih (List.subset_of_cons_subset hops), List.countP_cons]
    by_cases hone : b.operations.countP (Operation.catches element event) = 1
    · simp only [hone, and_true, if_true]
      omega
    · simp [hone]

end Scene

/-! ## The code of a block -/

theorem Emit.yields_blockBody {σ : Scene} {next : Nat} {root : Bool} {setter nodes code : Listing}
    {found made : List String} {write : Operation → Listing} {events : Operation → List String}
    (hsetter : Yields (referenceSetter root) (σ.enter b 0) setter [] (σ.enter b 0))
    (hnodes : Yields (Listing.blockNodes b.plan) (σ.enter b 0) nodes found (σ.enter b next))
    (hops : Yields (Listing.operations b.operations) (σ.enter b next) code made (σ.enter b next))
    (heffects : ∀ e ∈ b.effects, ∀ op ∈ e.operations, Yields (Listing.ownOperation (some op)) (σ.enter b next) (write op) (events op) (σ.enter b next)) :
    let run := Listing.operationsWhere (fun _ => true) b.effects
    Yields (Listing.blockBody root b) σ
      (setter ++ nodes ++ code ++ Listing.rerunOf (run.flatMap write) ++ Listing.returning b.returns)
      (found ++ (made ++ (run.flatMap events))) σ := by
  have hall := yields_effectOperations heffects (fun _ => true)
  cases b
  rw [Listing.blockBody]
  refine .withBlock next (.bind_of_nil hsetter (hnodes.bind (hops.bind ?_)))
  rw [← List.append_nil (List.flatMap events _)]
  exact hall.bind ((yields_rerun _ _).map _)

/-- The code of a block is that of its operations, with code before and behind it that sets no fields. -/
theorem Block.HasBody.split {body : Listing} (h : b.HasBody body) (hb : b.Gathered) :
    ∃ (σ : Scene) (front back : Listing), σ.blocks.head?.map Prod.fst = some b ∧
      body = front ++ b.operations.flatMap σ.write ++ back ∧ front.fields = [] ∧ back.fields = [] := by
  obtain ⟨κ, hwritten⟩ := h
  have hstart : ∀ around : List (Block × Nat), ∃ (next : Nat) (nodes : Listing) (found : List String),
      Yields (Listing.blockNodes b.plan) (Scene.enter ⟨κ, around⟩ b 0) nodes found
        (Scene.enter ⟨κ, around⟩ b next) ∧ nodes.fields = [] := by
    intro around
    obtain ⟨next, own, hown, nodes, _, found, hnodes, -, -, h⟩ :=
      (Correspondence.accounted_body (P := fun _ => True) (b := b) fun _ _ => trivial).nodes
        (σ := ⟨κ, around⟩) (τ := ⟨κ, around⟩) rfl
    exact ⟨next, nodes, found, hnodes, h.fields (hown hb.muted)⟩
  have heffects : ∀ (σ : Scene) (test : List Expression → Bool),
      Listing.fields ((Listing.operationsWhere test b.effects).flatMap σ.write) = [] := by
    intro σ test
    refine Scene.fields_flatMap_write fun op hop => ?_
    obtain ⟨e, he, hop⟩ := List.mem_flatMap.mp hop
    exact hb.effects e (List.mem_of_mem_filter he) op hop
  cases hwritten with
  | block root around =>
    obtain ⟨next, nodes, found, hnodes, hbare⟩ := hstart around
    let σ := Scene.enter ⟨κ, around⟩ b next
    obtain ⟨setter, hsetter, -, hplain⟩ :=
      settled_referenceSetter root (Scene.enter ⟨κ, around⟩ b 0) _ (.refl _)
    have hops := yields_operations fun op (_ : op ∈ b.operations) => (σ.accounted_write op).1
    have hrun := yields_blockBody hsetter hnodes hops fun e _ op _ => (σ.accounted_write op).1
    refine ⟨σ, setter ++ nodes, Listing.rerunOf ((Listing.operationsWhere (fun _ => true) b.effects).flatMap
      σ.write) ++ Listing.returning b.returns, rfl, ?_, by simp [hplain.fields, hbare],
      by simp [heffects σ, (Listing.plain_returning _).fields]⟩
    rw [hrun.value, ← List.append_assoc]
  | loop id kind around =>
    obtain ⟨next, nodes, found, hnodes, hbare⟩ := hstart around
    let σ := Scene.enter ⟨κ, around⟩ b next
    have hops := yields_operations fun op (_ : op ∈ b.operations) => (σ.accounted_write op).1
    have hrun := yields_loopBody hnodes hops (fun e _ op _ => (σ.accounted_write op).1) id kind
    refine ⟨σ, nodes, Listing.loopEffects id kind b.effects σ.write ++ Listing.returning b.returns, rfl, ?_,
      hbare, ?_⟩
    · rw [hrun.value, ← List.append_assoc]
    · have hselected : ((b.effects.filter fun e => (kind e.expressions).value?.isSome).map
          fun e => e.operations.flatMap σ.write).flatMap Listing.fields = [] := by
        rw [List.flatMap_map]
        refine List.flatMap_eq_nil_iff.mpr fun e he => ?_
        exact Scene.fields_flatMap_write (hb.effects e (List.mem_of_mem_filter he))
      simp [Listing.loopEffects, heffects σ, hselected, (Listing.plain_returning _).fields]

theorem Block.HasBody.listensIn {body : Listing} (h : b.HasBody body) (hb : b.Gathered) :
    b.ListensIn body := by
  obtain ⟨σ, front, back, hcurrent, rfl, hfront, hback⟩ := h.split hb
  refine ⟨⟨σ, front, back, hcurrent, rfl, fun l hl hdelegate => ?_⟩, fun element event => ?_⟩
  · have hcaught : (Operation.setEvent l).caught ≠ [] := by
      simp [Operation.caught, Listener.caught, hdelegate]
    have hpos : 0 < b.operations.countP (Operation.catches l.element l.key.content) :=
      List.countP_pos_iff.mpr
        ⟨_, (hb.mem_allOperations hcaught).mp hl, by simp [Operation.catches, hdelegate]⟩
    rw [Scene.write_setEvent hcurrent hdelegate, hb.listenerCount_eq]
    by_cases hone : b.operations.countP (Operation.catches l.element l.key.content) = 1
    · rw [if_neg (by omega), if_pos hone]
    · rw [if_pos (by omega), if_neg hone]
  · refine ⟨hb.listenerCount_eq, ?_⟩
    rw [hb.listenerCount_eq, Listing.fields_append, Listing.fields_append, hfront, hback, List.nil_append,
      List.append_nil, Scene.count_flatMap_write hcurrent (List.Subset.refl _)]
    split
    · assumption
    · rfl

/-- In a plan that was made for a template, nodes and effects catch no events at the document. -/
theorem Block.gathered_of_lowered (o : LoweringOptions) (t : Template)
    (hb : b ∈ (t.lower o .none).finish.block :: (t.lower o .none).finish.block.inner) : b.Gathered := by
  obtain ⟨hcensus, hpart⟩ := Block.accounted _ b hb
  refine ⟨fun n hn op hop => ?_, fun e he op hop => ?_⟩
  · have hfits := fits_of_mem_census (hcensus (b.nodes_subset_census hn))
    have hmakes : n.operation.all Operation.isBlock = true := hfits.2.2
    rw [hop] at hmakes
    exact Operation.caught_of_isBlock hmakes
  · have hmem : Part.effect e ∈ (t.lower o .none).finish.block.parts := by
      refine Block.parts_closed _ b hpart ?_
      rw [Block.parts_eq]
      simp [Effect.mem_partsOf he]
    obtain ⟨-, hreactive⟩ := allows_of_mem_finish onceRule_isOpen o t hmem (by simp)
    cases op with
    | setEvent l => simp [Operation.caught, Listener.caught, hreactive.undelegated l hop]
    | _ => rfl

/-! ## The statements before the code -/

def RenderPlan.templateText (plan : RenderPlan) (template : String × Nat) : String :=
  "const t" ++ toString template.2 ++ " = " ++ "_template" ++ "(" ++ Text.quote template.1
    ++ (if plan.rootTemplates.contains template.2 then ", true" else "") ++ ")\n"

def eventText (event : String) : String := "_delegateEvents(" ++ Text.quote event ++ ")\n"

theorem Emitter.sortedDelegates_pairwise {s : Emitter} (h : s.delegates.Nodup) :
    s.sortedDelegates.Pairwise (· < ·) := by
  have hnodup : s.sortedDelegates.Pairwise (· ≠ ·) := (List.mergeSort_perm _ _).nodup_iff.mpr h
  refine (s.sortedDelegates_sorted.and hnodup).imp fun {a b} hab => String.not_le.mp fun hba => hab.2 ?_
  exact String.le_antisymm hab.1 hba

namespace Emit

theorem mapM_fst_and_delegates {α β : Type} {f : α → Emit β} {g : α → β}
    (hf : ∀ a s, (f a s).1 = g a ∧ (f a s).2.delegates = s.delegates) (l : List α) (s : Emitter) :
    (l.mapM f s).1 = l.map g ∧ (l.mapM f s).2.delegates = s.delegates := by
  induction l generalizing s with
  | nil => exact ⟨rfl, rfl⟩
  | cons a l ih =>
    rw [List.mapM_cons]
    obtain ⟨hvalue, hstate⟩ := hf a s
    obtain ⟨hvalues, hstates⟩ := ih (f a s).2
    simp [hvalue, hvalues, hstate, hstates]

theorem delegates_helper (name : String) (s : Emitter) : (helper name s).2.delegates = s.delegates := by
  change (ite _ s _ : Emitter).delegates = s.delegates
  split <;> rfl

theorem moduleStatements_eq (plan : RenderPlan) (s : Emitter) :
    (moduleStatements plan s).1 =
      String.join (plan.templates.zipIdx.map plan.templateText ++ s.sortedDelegates.map eventText) ∧
    (moduleStatements plan s).2.delegates = s.delegates := by
  have htemplate : ∀ (template : String × Nat) (s : Emitter),
      (templateStatement template.2 template.1 (plan.rootTemplates.contains template.2) s).1 =
        plan.templateText template ∧
      (templateStatement template.2 template.1 (plan.rootTemplates.contains template.2) s).2.delegates =
        s.delegates := fun _ s => ⟨rfl, delegates_helper _ s⟩
  have hevent : ∀ (event : String) (s : Emitter),
      (eventStatement event s).1 = eventText event ∧ (eventStatement event s).2.delegates = s.delegates :=
    fun _ s => ⟨rfl, delegates_helper _ s⟩
  obtain ⟨htemplates, hbefore⟩ := mapM_fst_and_delegates htemplate plan.templates.zipIdx s
  obtain ⟨hevents, hafter⟩ := mapM_fst_and_delegates hevent s.sortedDelegates
    ((plan.templates.zipIdx.mapM fun template =>
      templateStatement template.2 template.1 (plan.rootTemplates.contains template.2)) s).2
  simp only [moduleStatements, run_bind, run_get, run_pure]
  rw [htemplates, Emitter.sortedDelegates, hbefore, ← Emitter.sortedDelegates]
  exact ⟨by rw [hevents], hafter.trans hbefore⟩

end Emit

/-- No listener at the document takes the place of another one, and none is left without its event. Every
function of the code was written for a block of the plan; in it, a listener at the document is a field of
its element if there is no other one for its element and event in the block, and a call otherwise. The
events of these listeners are those that are registered, each once, before the code. -/
theorem RenderPlan.delegated_listeners_kept_and_registered (o : LoweringOptions) (t : Template)
    (options : EmitOptions) (library : String) :
    let plan := (t.lower o .none).finish
    let generated := plan.generate options library
    ∃ blocks bodies, (∀ b ∈ blocks, b ∈ plan.block :: plan.block.inner) ∧
      generated.listing.bodies.Perm bodies ∧
      List.Forall₂ Block.ListensIn blocks bodies ∧
      generated.delegatedEvents.Pairwise (· < ·) ∧
      (∀ event, event ∈ generated.delegatedEvents ↔
        ∃ b ∈ blocks, ∃ element, 0 < b.listenerCount element event) ∧
      generated.preamble = importStatement library generated.helpers ++
        String.join (plan.templates.zipIdx.map plan.templateText ++
          generated.delegatedEvents.map eventText) := by
  intro plan generated
  have hgathered : ∀ b ∈ plan.block :: plan.block.inner, b.Gathered := fun b hb =>
    Block.gathered_of_lowered o t hb
  have hbody : (Correspondence.accounted (· ∈ plan.block :: plan.block.inner)).Body plan.block :=
    Correspondence.accounted_body fun _ hb => hb
  obtain ⟨_, _, events, hrun, -, -, hlisting⟩ := hbody.renderExpression
    (σ := (Emitter.ofPlan options plan).scene) (τ := (Emitter.ofPlan options plan).scene) ⟨rfl, rfl⟩
  obtain ⟨hvalue, -, hgathers⟩ := hrun (.ofPlan options plan) rfl
  obtain ⟨blocks, hblocks, hbodies, hevents⟩ := hlisting.blocks
  have hevents := hevents fun b hb => (hgathered b (hblocks b hb)).muted
  have hnodup := hgathers.nodup List.nodup_nil
  obtain ⟨hstatements, hdelegates⟩ :=
    moduleStatements_eq plan (renderExpression plan.block (.ofPlan options plan)).2
  have hsorted : generated.delegatedEvents =
      (renderExpression plan.block (.ofPlan options plan)).2.sortedDelegates := by
    rw [Emitter.sortedDelegates, ← hdelegates]
    rfl
  refine ⟨blocks, _, hblocks, .refl _, ?_, ?_, fun event => ?_, ?_⟩
  · rw [← hvalue] at hbodies
    refine ((List.forall₂_and_left _ _).mpr ⟨hblocks, hbodies⟩).imp fun b body h => ?_
    exact h.2.listensIn (hgathered b h.1)
  · rw [hsorted]
    exact Emitter.sortedDelegates_pairwise hnodup
  · rw [hsorted, Emitter.sortedDelegates, List.mem_mergeSort, hgathers.mem, hevents]
    simp only [Emitter.ofPlan, List.not_mem_nil, false_or, List.mem_flatMap]
    refine exists_congr fun b => and_congr_right fun hb => ?_
    exact Block.Gathered.mem_caught (hgathered b (hblocks b hb))
  · rw [hsorted, ← hstatements]
    rfl

end JsxTemplate
