import JsxTemplate.Proofs.Emission.Generation
import JsxTemplate.Proofs.SourceMap.Boundaries

/-!
# The indentation of the code

Fragments open and close levels of indentation. Whatever is written for a plan, or for a part of it, closes
the levels that it opens, and closes none before it was opened (`Code.Balanced`). So the depth that is carried
along when the text is put together is the number of levels that are open.
-/

namespace JsxTemplate

open Emit Correspondence

/-! ## Levels that are open -/

namespace Code

variable {code front : Code}

/-- Whether code opens as many levels of indentation as it closes, and has closed at no point more of them
than it has opened. -/
structure Balanced (code : Code) : Prop where
  total : code.count .indent = code.count .dedent
  along : ∀ front, front <+: code → front.count .dedent ≤ front.count .indent

/-- Whether no level is closed where none is open, and every line is indented by the number of levels that are
open before it. -/
structure Indented (code : Code) : Prop where
  opened : ∀ front back, code = front ++ .dedent :: back → 0 < depthBehind 0 front
  lines : ∀ front back, code = front ++ .newline :: back →
    ∃ depth, front.count .dedent + depth = front.count .indent ∧
      code.chars 0 = chars 0 front ++ '\n' :: List.replicate (2 * depth) ' ' ++ chars depth back

theorem count_of_level? {level next : Nat} (h : code.level? level = some next) :
    level + code.count .indent = next + code.count .dedent := by
  induction code generalizing level with
  | nil => simpa [level?] using h
  | cons f code ih =>
    obtain ⟨between, hf, hcode⟩ := Option.bind_eq_some_iff.mp h
    have ih := ih hcode
    cases f with
    | indent =>
      cases hf
      rw [List.count_cons_self, List.count_cons_of_ne (by decide)]
      omega
    | dedent =>
      cases level with
      | zero => cases hf
      | succ level =>
        cases hf
        rw [List.count_cons_self, List.count_cons_of_ne (by decide)]
        omega
    | newline | code | mapped =>
      cases hf
      simpa using ih

theorem IsLevel.balanced (h : code.IsLevel) : code.Balanced where
  total := by
    have := count_of_level? (h 0)
    omega
  along := by
    rintro front ⟨back, rfl⟩
    have hall := h 0
    rw [level?_append] at hall
    obtain ⟨level, hfront, -⟩ := Option.bind_eq_some_iff.mp hall
    have := count_of_level? hfront
    omega

/-- The depth that is carried along is the number of levels that are open. -/
theorem Balanced.depthBehind_add (h : code.Balanced) (hfront : front <+: code) :
    depthBehind 0 front + front.count .dedent = front.count .indent := by
  induction front using List.reverseRecOn with
  | nil => rfl
  | append_singleton front f ih =>
    have ih := ih ((List.prefix_append front [f]).trans hfront)
    have hnext := h.along _ hfront
    rw [depthBehind, List.foldl_append]
    change Fragment.depthAfter (depthBehind 0 front) f + _ = _
    cases f <;> simp [Fragment.depthAfter] at hnext ⊢ <;> omega

theorem Balanced.indented (h : code.Balanced) : code.Indented where
  opened := by
    rintro front back rfl
    have hdepth := h.depthBehind_add (List.prefix_append front _)
    have hnext := h.along (front ++ [.dedent]) ⟨back, by simp⟩
    simp at hnext
    omega
  lines := by
    rintro front back rfl
    have hdepth := h.depthBehind_add (List.prefix_append front _)
    refine ⟨depthBehind 0 front, by omega, ?_⟩
    rw [chars_append, chars]
    simp [Fragment.chars, Fragment.depthAfter]

end Code

/-! ## The code of actions -/

namespace Emit

variable {α : Type} {x y : Emit α} {Q : List String → α → α → Prop} {σ' τ τ' : Scene} {own : List String}
  (s : Emitter)

theorem Parallel.exists_left (h : Parallel s.scene τ x y Q σ' τ') : ∃ events b, Q events (x s).1 b := by
  obtain ⟨a, b, events, hx, -, hab⟩ := h
  obtain rfl := (hx s rfl).1
  exact ⟨events, b, hab⟩

/-- The correspondence that says of all code of a single run that it is level. -/
def leveled : Correspondence := accounted fun _ => True

theorem leveled_body (b : Block) : leveled.Body b := accounted_body fun _ _ => trivial

theorem leveled_scenes : leveled.Scenes s.scene s.scene := ⟨rfl, rfl⟩

theorem balanced_of_steady {x : Emit Listing} (hx : leveled.Steady own x) : (x s).1.code.Balanced := by
  obtain ⟨_, _, -, h⟩ := (hx (leveled_scenes s)).exists_left
  exact h.level.balanced

theorem balanced_of_settled {x : Emit Code} (hx : Settled Code.IsLevel x) : (x s).1.Balanced :=
  (hx.holds s).2.balanced

theorem balanced_blockBody (root : Bool) (b : Block) : (Listing.blockBody root b s).1.code.Balanced := by
  obtain ⟨_, -, hbody⟩ := (leveled_body b).blockBody root (leveled_scenes s).1
  obtain ⟨_, _, -, h⟩ := hbody.exists_left
  exact h.level.balanced

theorem balanced_loopBody (id : Nat) (kind : List Expression → LoopEffect) (b : Block) :
    (Listing.loopBody id kind b s).1.code.Balanced := by
  obtain ⟨_, -, hbody⟩ := (leveled_body b).loopBody id kind (leveled_scenes s).1
  obtain ⟨_, _, -, h⟩ := hbody.exists_left
  exact h.level.balanced

theorem steady_ownOperation_leveled (op : Operation) :
    leveled.Steady op.caught (Listing.ownOperation (some op)) :=
  steady_ownOperation accounted_loops fun b _ => leveled_body b

theorem balanced_rerun (test : List Expression → Bool) (effects : List Effect) :
    ((Listing.effectOperations test effects >>= rerun) s).1.code.Balanced := by
  have heffects := steady_effectOperations test fun _ (_ : _ ∈ effects) op _ => steady_ownOperation_leveled op
  obtain ⟨_, _, -, h⟩ :=
    ((heffects (leveled_scenes s)).bind fun _ _ _ hcode => parallel_rerun hcode).exists_left
  exact h.level.balanced

theorem balanced_slotBody (body : SlotBody) : (Listing.slotBody body s).1.code.Balanced := by
  obtain ⟨_, _, -, h⟩ := (parallel_slotBody (fun b _ => leveled_body b) (leveled_scenes s).1 []
    (.slot body.pattern)).exists_left
  exact h.level.balanced

theorem balanced_slotPart (group : SlotGroup) : (Listing.slotPart group s).1.item.code.Balanced := by
  obtain ⟨_, _, h⟩ := (parallel_slotPart (leveled_scenes s) fun b _ => leveled_body b).exists_left
  exact (leveled.item h).2.level.balanced

theorem balanced_slots (groups : List SlotGroup) :
    ∀ l ∈ Listing.slots (Listing.slotParts groups s).1, l.code.Balanced := by
  intro l hl
  obtain ⟨_, _, hparts⟩ := (parallel_slotParts (leveled_scenes s) fun b _ => leveled_body b).exists_left
  have h := leveled.slots hparts
  rw [hl] at h
  generalize Listing.slots _ = slots at h
  cases h with
  | some h => exact h.2.level.balanced

end Emit

/-- The indentation of the code of a plan is balanced: no level is closed where none is open, and every line
is indented by the number of levels that are open before it. What is written for a block, an operation,
effects, a loop, a component, a slot or a property is balanced by itself, whatever was written before. -/
theorem indentation_is_balanced (options : EmitOptions) (library : String) (plan : RenderPlan) (s : Emitter) :
    ((plan.generate options library).code.Balanced ∧ (plan.generate options library).code.Indented) ∧
    (∀ root b id kind op test effects index, ∀ x ∈ [thunk (Listing.blockBody root b),
        Listing.blockBody root b, Listing.loopBody id kind b, Listing.operation op,
        Listing.effectOperations test effects, Listing.effectOperations test effects >>= rerun,
        Listing.selectorEffects id test index effects], (x s).1.code.Balanced) ∧
    (∀ l c body slot group, ∀ x ∈ [Listing.loop l, Listing.component c, Listing.slotBody body,
        Listing.dynamicSlot slot, Listing.SlotPart.item <$> Listing.slotPart group], (x s).1.code.Balanced) ∧
    (∀ groups, ∀ l ∈ Listing.slots (Listing.slotParts groups s).1, l.code.Balanced) ∧
    (∀ p value values modifiers wrap group fixed groups, ∀ x ∈ [propertyKey p, propertyValue values,
        objectEntry p, groupObject group, handler value modifiers wrap, modelEntries p, componentValue p wrap,
        componentEntry wrap p, propertyObject fixed groups], (x s).1.Balanced) ∧
    ∀ group groups, ∀ x ∈ [propertySource group, componentProperties groups], ∀ code ∈ (x s).1,
      code.Balanced := by
  have hgenerate : (plan.generate options library).code.Balanced :=
    balanced_of_steady _ (leveled_body plan.block).renderExpression
  have hown := steady_ownOperation_leveled
  refine ⟨⟨hgenerate, hgenerate.indented⟩, ?_, ?_, balanced_slots s, ?_, ?_⟩
  · intro root b id kind op test effects index
    simp only [List.forall_mem_cons]
    exact ⟨balanced_of_steady s (leveled_body b).thunk, balanced_blockBody s root b,
      balanced_loopBody s id kind b,
      balanced_of_steady s (steady_operation accounted_loops fun b _ => leveled_body b),
      balanced_of_steady s (steady_effectOperations test fun _ _ op _ => hown op),
      balanced_rerun s test effects,
      balanced_of_steady s (steady_selectorEffects id test index fun _ _ op _ => hown op), by simp⟩
  · intro l c body slot group
    simp only [List.forall_mem_cons]
    exact ⟨balanced_of_steady s (accounted_loops l (leveled_body l.render)),
      balanced_of_steady s (steady_component fun b _ => leveled_body b), balanced_slotBody s body,
      balanced_of_steady s (steady_dynamicSlot fun b _ => leveled_body b), balanced_slotPart s group, by simp⟩
  · intro p value values modifiers wrap group fixed groups
    simp only [List.forall_mem_cons]
    exact ⟨balanced_of_settled s (settled_propertyKey p),
      balanced_of_settled s (settled_propertyValue values),
      balanced_of_settled s (settled_objectEntry p), balanced_of_settled s (settled_groupObject group),
      balanced_of_settled s (settled_handler value modifiers wrap),
      balanced_of_settled s (settled_modelEntries p),
      balanced_of_settled s (settled_componentValue p wrap),
      balanced_of_settled s (settled_componentEntry wrap p),
      balanced_of_settled s (settled_propertyObject fixed groups), by simp⟩
  · intro group groups
    simp only [List.forall_mem_cons]
    exact ⟨fun code hcode => (((settled_propertySource group).holds s).2 code hcode).balanced,
      fun code hcode => (((settled_componentProperties groups).holds s).2 code hcode).balanced, by simp⟩

end JsxTemplate
