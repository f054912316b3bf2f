import JsxTemplate.Proofs.Lowering.Deeds

/-!
# Plain actions

Most of what is done at a node, and all that is done for the attributes of an element, changes only the
node itself and the lists of the current block (`Tidy`). The walk stays where it is: no block is entered
or left, and no node is marked (`Still`).
-/

namespace JsxTemplate

/-- Whether the walk is where it was. -/
structure Unmoved (c c' : Context) : Prop where
  node : c'.frame.node = c.frame.node
  outer : c'.outer = c.outer
  saved : c'.saved = c.saved
  loopDepth : c'.loopDepth = c.loopDepth
  scope : c'.scope = c.scope
  discarding : c'.discarding = c.discarding
  log : c'.log = c.log
  fault : c'.fault = c.fault

/-- Whether the walk is where it was, and nothing was marked. -/
structure Still (c c' : Context) : Prop extends Unmoved c c' where
  seen : c'.seen = c.seen

/-- Whether the walk is where it was, and at most texts were marked. -/
structure Calm (c c' : Context) : Prop extends Unmoved c c' where
  marks : ∀ path purpose, purpose ≠ Lower.textPurpose →
    ((path, purpose) ∈ c'.seen ↔ (path, purpose) ∈ c.seen)

section

variable {c c' c'' : Context}

theorem Unmoved.trans (h : Unmoved c c') (h' : Unmoved c' c'') : Unmoved c c'' :=
  ⟨h'.node.trans h.node, h'.outer.trans h.outer, h'.saved.trans h.saved, h'.loopDepth.trans h.loopDepth,
    h'.scope.trans h.scope, h'.discarding.trans h.discarding, h'.log.trans h.log, h'.fault.trans h.fault⟩

theorem Still.refl (c : Context) : Still c c := ⟨⟨rfl, rfl, rfl, rfl, rfl, rfl, rfl, rfl⟩, rfl⟩

theorem Still.trans (h : Still c c') (h' : Still c' c'') : Still c c'' :=
  ⟨h.toUnmoved.trans h'.toUnmoved, h'.seen.trans h.seen⟩

theorem Still.calm (h : Still c c') : Calm c c' := { h with marks := fun _ _ _ => by rw [h.seen] }

theorem Calm.trans (h : Calm c c') (h' : Calm c' c'') : Calm c c'' :=
  ⟨h.toUnmoved.trans h'.toUnmoved,
    fun path purpose hp => (h'.marks path purpose hp).trans (h.marks path purpose hp)⟩

end

/-- Whether the current node may have been given a number, and no other number was taken. -/
def Numbering (c c' : Context) : Prop :=
  (c'.frame.plan.id = c.frame.plan.id ∧ c'.frame.plan.referenced = c.frame.plan.referenced ∧
    c'.nextId = c.nextId) ∨
  (c.frame.plan.id = none ∧ c'.frame.plan.id = some c.nextId ∧ c'.frame.plan.referenced = true ∧
    c'.nextId = c.nextId + 1)

theorem Numbering.trans {c c' c'' : Context} (h : Numbering c c') (h' : Numbering c' c'') :
    Numbering c c'' := by
  rcases h with ⟨hid, href, hnext⟩ | ⟨hnone, hid, href, hnext⟩
  · rw [Numbering, ← hid, ← href, ← hnext]
    exact h'
  · rcases h' with ⟨hid', href', hnext'⟩ | ⟨hnone', -⟩
    · exact Or.inr ⟨hnone, hid'.trans hid, href'.trans href, hnext'.trans hnext⟩
    · simp [hid] at hnone'

/-- Whether, besides the markup of the current node and its number, only operations were added. -/
structure Tidy (c c' : Context) : Prop extends Still c c' where
  slots : c'.frame.slots = c.frame.slots
  children : c'.frame.plan.children = c.frame.plan.children
  anchor : c'.frame.plan.anchor = c.frame.plan.anchor
  operation : c'.frame.plan.operation = c.frame.plan.operation
  number : Numbering c c'

namespace Tidy

variable {c c' c'' : Context}

theorem refl (c : Context) : Tidy c c :=
  { Still.refl c with
    slots := rfl, children := rfl, anchor := rfl, operation := rfl
    number := Or.inl ⟨rfl, rfl, rfl⟩ }

theorem trans (h : Tidy c c') (h' : Tidy c' c'') : Tidy c c'' :=
  { h.toStill.trans h'.toStill with
    slots := h'.slots.trans h.slots
    children := h'.children.trans h.children
    anchor := h'.anchor.trans h.anchor
    operation := h'.operation.trans h.operation
    number := h.number.trans h'.number }

end Tidy

namespace Lower

structure Steady {α : Type} (x : Lower α) : Prop extends Uniform x where
  still : ∀ c, Still c (x c).2

namespace Steady

variable {α β : Type}

theorem pure (a : α) : Steady (Pure.pure a) := ⟨.pure a, .refl⟩

theorem bind {x : Lower α} {f : α → Lower β} (hx : Steady x) (hf : ∀ a, Steady (f a)) :
    Steady (x >>= f) :=
  ⟨hx.toUniform.bind fun a => (hf a).toUniform, fun c => (hx.still c).trans ((hf _).still _)⟩

end Steady

/-- Whether an action changes only the current node and adds operations. -/
structure Plain {α : Type} (x : Lower α) : Prop extends Uniform x where
  tidy : ∀ c, Tidy c (x c).2

namespace Plain

variable {α β : Type}

theorem steady {x : Lower α} (h : Plain x) : Steady x := ⟨h.toUniform, fun c => (h.tidy c).toStill⟩

end Plain

end Lower

/-! ## Changes -/

section

open Lower

variable {c c' : Context} {op : Operation} {cursor : Cursor}

theorem Registered.still (h : Registered op cursor c c') : Still c c' := by
  cases h <;> exact { Still.refl c with }

theorem Registered.tidy (h : Registered op cursor c c') : Tidy c c' := by
  cases h <;> exact { Tidy.refl c with }

def Deed.isStill : Deed → Bool
  | .text | .mark | .wrap | .enter | .leave | .discard | .scope | .attach | .give | .gather | .fault => false
  | _ => true

def Deed.isCalm (d : Deed) : Bool := d.isStill || d == .text

def Deed.isTidy : Deed → Bool
  | .number | .flags | .markup | .root | .once | .work | .inset | .insertion | .report | .names | .piece => true
  | _ => false

namespace Deed.Changes

variable {d : Deed}

theorem still (h : Changes c d c') (hd : d.isStill = true) : Still c c' := by
  cases h with
  | work _ h => exact h.still
  | inset _ _ h => exact h.still
  | _ => first | exact { Still.refl c with } | cases hd

theorem calm (h : Changes c d c') (hd : d.isCalm = true) : Calm c c' := by
  rcases Bool.or_eq_true_iff.mp hd with hd | hd
  · exact (h.still hd).calm
  · obtain rfl := beq_iff_eq.mp hd
    cases h with
    | text path => exact { (Still.refl c).calm with marks := fun _ _ hp => by simp [hp] }

theorem tidy (h : Changes c d c') (hd : d.isTidy = true) : Tidy c c' := by
  cases h with
  | number h => exact { Tidy.refl c with number := Or.inr ⟨h, rfl, rfl, rfl⟩ }
  | work _ h => exact h.tidy
  | inset _ _ h => exact h.tidy
  | _ => first | exact { Tidy.refl c with } | cases hd

end Deed.Changes

end

namespace Lower

section

variable {α : Type} {deeds : List Deed} {x : Lower α} (h : Does deeds x)

include h

theorem Does.steady (hd : deeds.all Deed.isStill = true) : Steady x :=
  ⟨h.toUniform, h.related .refl .trans fun d hmem _ _ hc => hc.still (List.all_eq_true.mp hd d hmem)⟩

theorem Does.calm (hd : deeds.all Deed.isCalm = true) : ∀ c, Calm c (x c).2 :=
  h.related (fun c => (Still.refl c).calm) .trans fun d hmem _ _ hc => hc.calm (List.all_eq_true.mp hd d hmem)

theorem Does.plain (hd : deeds.all Deed.isTidy = true) : Plain x :=
  ⟨h.toUniform, h.related .refl .trans fun d hmem _ _ hc => hc.tidy (List.all_eq_true.mp hd d hmem)⟩

end

/-! ## Actions -/

theorem plain_reference : Plain reference := does_reference.plain rfl

theorem plain_report (code : ErrorCode) (loc : Option Location) : Plain (report code loc) :=
  (does_report code loc).plain rfl

theorem plain_addEffect {op : Operation} (expressions : List Expression) (hfixed : op.IsFixed expressions) :
    Plain (addEffect expressions op) :=
  ⟨(uniform_registerEffect _ _ _).bind fun _ => .pure _, fun c => (registered_registerEffect hfixed .atEnd c).tidy⟩

theorem plain_onceStep : Plain onceStep := does_onceStep.plain rfl

theorem steady_modifyFrame {f : Frame → Frame} (h : ∀ frame, (f frame).node = frame.node) :
    Steady (modifyFrame f) :=
  ⟨uniform_modifyFrame f, fun c => { Still.refl c with node := h c.frame }⟩

theorem steady_modifyPlan (f : NodePlan → NodePlan) : Steady (modifyPlan f) :=
  steady_modifyFrame fun _ => rfl

theorem steady_addSlots (slots : List SlotGroup) : Steady (addSlots slots) :=
  steady_modifyFrame fun _ => rfl

theorem steady_addToBlock : Steady addToBlock := does_addToBlock.steady rfl

theorem steady_insertRuns (runs : List (List Nat × RunPlace)) : Steady (insertRuns runs) :=
  (does_insertRuns runs).steady rfl

theorem steady_referenceStep : Steady referenceStep := does_referenceStep.steady rfl

end Lower

end JsxTemplate
