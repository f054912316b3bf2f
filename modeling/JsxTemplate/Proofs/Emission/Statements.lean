import JsxTemplate.Proofs.Emission.Settled
import Mathlib.Data.List.Forall2

/-!
# Lists of operations and nodes

The code of the operations of effects is that of a list of operations (`Listing.effectOperations_eq`). In a
loop, every operation of an effect is of exactly one kind (`Listing.operationsWhere_perm`).
-/

namespace JsxTemplate

namespace Emit

/-! ## Running actions -/

variable {α β : Type}

@[simp] theorem run_pure (a : α) (s : Emitter) : (pure a : Emit α) s = (a, s) := rfl

@[simp] theorem run_bind (x : Emit α) (f : α → Emit β) (s : Emitter) :
    (x >>= f) s = f (x s).1 (x s).2 := rfl

@[simp] theorem run_map (f : α → β) (x : Emit α) (s : Emitter) :
    (f <$> x) s = (f (x s).1, (x s).2) := rfl

@[simp] theorem run_get (s : Emitter) : (get : Emit Emitter) s = (s, s) := rfl

@[simp] theorem run_set (s s' : Emitter) : (set s' : Emit PUnit) s = (⟨⟩, s') := rfl

@[simp] theorem run_ite (c : Prop) [Decidable c] (x y : Emit α) (s : Emitter) :
    (if c then x else y) s = if c then x s else y s := by
  split <;> rfl

end Emit

/-! ## Lists of operations and nodes -/

namespace Listing

theorem operations_cons (op : Operation) (ops : List Operation) :
    operations (op :: ops) = do
      let a ← ownOperation (some op)
      let b ← operations ops
      return a ++ b := by
  rw [operations, ownOperation]
  simp only [bind_assoc, pure_bind]

theorem operations_append (ops ops' : List Operation) :
    operations (ops ++ ops') = do
      let a ← operations ops
      let b ← operations ops'
      return a ++ b := by
  induction ops with
  | nil => simp [operations]
  | cons op ops ih =>
    rw [List.cons_append, operations_cons, operations_cons, ih]
    simp only [bind_assoc, pure_bind, List.append_assoc]

def operationsWhere (test : List Expression → Bool) (effects : List Effect) : List Operation :=
  (effects.filter fun e => test e.expressions).flatMap Effect.operations

theorem forall_mem_operationsWhere {P : Operation → Prop} {effects : List Effect}
    (h : ∀ e ∈ effects, ∀ op ∈ e.operations, P op) (test : List Expression → Bool) :
    ∀ op ∈ operationsWhere test effects, P op := by
  intro op hop
  obtain ⟨e, he, hop⟩ := List.mem_flatMap.mp hop
  exact h e (List.mem_of_mem_filter he) op hop

theorem effectOperations_eq (test : List Expression → Bool) (effects : List Effect) :
    effectOperations test effects = operations (operationsWhere test effects) := by
  induction effects with
  | nil => simp [effectOperations, operationsWhere, operations]
  | cons e effects ih =>
    obtain ⟨expressions, ops⟩ := e
    rw [effectOperations, ih, operationsWhere, operationsWhere, List.filter_cons]
    split
    · rw [List.flatMap_cons, operations_append]
    · simp

theorem perm_of_kinds (kind : List Expression → LoopEffect) (effects : List Effect) :
    ((effects.filter fun e => kind e.expressions == .regular)
      ++ (effects.filter fun e => (kind e.expressions).value?.isSome)
      ++ effects.filter fun e => kind e.expressions == .keyOnly).Perm effects := by
  induction effects with
  | nil => exact .refl _
  | cons e effects ih =>
    cases h : kind e.expressions with
    | regular => simpa [h, LoopEffect.value?] using ih
    | selector value =>
      simp only [List.filter_cons, h, LoopEffect.value?, Option.isSome_some, if_true,
        show (LoopEffect.selector value == .regular) = false from rfl,
        show (LoopEffect.selector value == .keyOnly) = false from rfl, Bool.false_eq_true, if_false]
      refine List.Perm.trans ?_ (ih.cons e)
      rw [List.append_assoc, List.append_assoc]
      exact List.perm_middle
    | keyOnly =>
      simp only [List.filter_cons, h, LoopEffect.value?, Option.isSome_none, if_true,
        show (LoopEffect.keyOnly == .regular) = false from rfl,
        show (LoopEffect.keyOnly == .keyOnly) = true from rfl, Bool.false_eq_true, if_false]
      exact List.Perm.trans List.perm_middle (ih.cons e)

/-- Every operation is of exactly one kind. -/
theorem operationsWhere_perm (kind : List Expression → LoopEffect) (effects : List Effect) :
    (operationsWhere (fun es => kind es == .regular) effects
      ++ operationsWhere (fun es => (kind es).value?.isSome) effects
      ++ operationsWhere (fun es => kind es == .keyOnly) effects).Perm
      (effects.flatMap Effect.operations) := by
  simpa only [List.flatMap_append, operationsWhere] using
    (perm_of_kinds kind effects).flatMap_right Effect.operations

theorem findUnder_induction {P : Emit Emit.Found → Prop} {ns : List NodePlan}
    (hfind : ∀ n ∈ ns, ∀ v, P (findIn v n)) (hnothing : P (pure .nothing))
    (happend : ∀ {x y}, P x → P y → P (do return (← x).append (← y)))
    (parents : List (Option Variable)) : P (findUnder parents ns) := by
  induction ns generalizing parents with
  | nil =>
    have hnil : findUnder parents [] = pure .nothing := by
      rcases parents with _ | ⟨_ | _, _⟩ <;> simp [findUnder]
    rw [hnil]
    exact hnothing
  | cons n ns ih =>
    have ih := ih fun n hn => hfind n (List.mem_cons_of_mem _ hn)
    rcases parents with _ | ⟨_ | v, parents⟩
    · rw [findUnder]
      · exact hnothing
      all_goals simp
    · rw [findUnder]
      exact ih parents
    · rw [findUnder]
      exact happend (hfind n List.mem_cons_self v) (ih parents)

end Listing

end JsxTemplate
