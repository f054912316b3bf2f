import JsxTemplate.Proofs.Emission.Loop

/-!
# The effects of loops

What is written for the effects of a loop is put together from what is written for their operations
(`Listing.loopEffects`): those that run again come first, then those that are given to selectors, and at
last those that run once. Every operation is written in the same scene, and so it does not matter when.
-/

namespace JsxTemplate

open Emit

namespace Listing

def rerunOf (body : Listing) : Listing :=
  if body.isEmpty then []
  else .newline :: .text ("_" ++ "renderEffect" ++ "(() => ") :: effectFunction body

/-- Operations that are given to selectors, which are counted from `index`. -/
def selectorCalls (id index : Nat) (codes : List Listing) : Listing :=
  (codes.zipIdx index).flatMap fun (code, i) =>
    .newline :: .text (Code.selectorName id i ++ "(() => \x7b") :: .fragment .indent :: code
      ++ [.fragment .dedent, .newline, .text "\x7d)"]

/-- What is written for the effects of a loop: first for those that run again, then for those that are
given to selectors, and at last for those that run once. -/
def loopEffects (id : Nat) (kind : List Expression → LoopEffect) (effects : List Effect)
    (write : Operation → Listing) : Listing :=
  rerunOf ((operationsWhere (fun es => kind es == .regular) effects).flatMap write)
    ++ selectorCalls id 0 ((effects.filter fun e => (kind e.expressions).value?.isSome).map
      fun e => e.operations.flatMap write)
    ++ (operationsWhere (fun es => kind es == .keyOnly) effects).flatMap write

end Listing

namespace LoopPlan

variable (l : LoopPlan)

def effectOperations : List Operation := l.render.effects.flatMap Effect.operations

def operationsOf (test : LoopEffect → Bool) : List Operation :=
  Listing.operationsWhere (fun es => test (l.kind true es)) l.render.effects

def effectScene (σ : Scene) (next : Nat) : Scene := (l.bodyScene σ).enter l.render next

end LoopPlan

def Scene.write (σ : Scene) (op : Operation) : Listing := (Listing.ownOperation (some op) σ.start).1

namespace Emit

variable {σ σ' : Scene}

theorem Yields.congr_events {α : Type} {x : Emit α} {a : α} {events events' : List String}
    (h : Yields x σ a events σ') (hsame : ∀ e, e ∈ events ↔ e ∈ events') :
    Yields x σ a events' σ' := by
  intro s hs
  obtain ⟨hvalue, hscene, hevents⟩ := h s hs
  exact ⟨hvalue, hscene, hevents.congr hsame⟩

theorem Yields.mem_delegates {α : Type} {x : Emit α} {a : α} {events : List String}
    (h : Yields x σ a events σ') (e : String) : e ∈ events ↔ e ∈ (x σ.start).2.delegates := by
  rw [(h σ.start rfl).2.2.mem]
  exact (or_iff_right List.not_mem_nil).symm

theorem yields_rerun (σ : Scene) (body : Listing) :
    Yields (Emit.rerun body) σ (Listing.rerunOf body) [] σ := by
  unfold Emit.rerun Listing.rerunOf
  split
  · exact .pure σ []
  · refine .bind_of_nil (yields_helper σ _) ?_
    exact .pure σ _

section

variable {write : Operation → Listing} {events : Operation → List String}

theorem yields_operations {ops : List Operation}
    (h : ∀ op ∈ ops, Yields (Listing.ownOperation (some op)) σ (write op) (events op) σ) :
    Yields (Listing.operations ops) σ (ops.flatMap write) (ops.flatMap events) σ := by
  induction ops with
  | nil =>
    rw [Listing.operations]
    exact .pure σ []
  | cons op ops ih =>
    rw [Listing.operations_cons, List.flatMap_cons, List.flatMap_cons]
    have ih := ih fun op hop => h op (List.mem_cons_of_mem _ hop)
    exact (h op List.mem_cons_self).bind (ih.map _)

variable {effects : List Effect}
  (h : ∀ e ∈ effects, ∀ op ∈ e.operations,
    Yields (Listing.ownOperation (some op)) σ (write op) (events op) σ)

include h

theorem yields_effectOperations (test : List Expression → Bool) :
    Yields (Listing.effectOperations test effects) σ
      ((Listing.operationsWhere test effects).flatMap write)
      ((Listing.operationsWhere test effects).flatMap events) σ := by
  rw [Listing.effectOperations_eq]
  exact yields_operations (Listing.forall_mem_operationsWhere h test)

theorem yields_selectorEffects (id index : Nat) (test : List Expression → Bool) :
    Yields (Listing.selectorEffects id test index effects) σ
      (Listing.selectorCalls id index ((effects.filter fun e => test e.expressions).map
        fun e => e.operations.flatMap write))
      ((Listing.operationsWhere test effects).flatMap events) σ := by
  induction effects generalizing index with
  | nil =>
    rw [Listing.selectorEffects]
    exact .pure σ []
  | cons e effects ih =>
    obtain ⟨expressions, ops⟩ := e
    have hops := yields_operations (h _ List.mem_cons_self)
    have ih := fun index => ih (fun e he => h e (List.mem_cons_of_mem _ he)) index
    rw [Listing.selectorEffects]
    unfold Listing.operationsWhere at ih ⊢
    rw [List.filter_cons]
    split
    · rw [List.flatMap_cons, List.flatMap_append, List.map_cons, Listing.selectorCalls, List.zipIdx_cons,
        List.flatMap_cons]
      refine hops.bind ?_
      simpa [Listing.selectorCalls] using (ih (index + 1)).map _
    · exact ih index

end

end Emit

namespace Listing

theorem loopEffects_of_regular {kind : List Expression → LoopEffect} (h : ∀ es, kind es = .regular)
    (id : Nat) (effects : List Effect) (write : Operation → Listing) :
    loopEffects id kind effects write =
      rerunOf ((effects.flatMap Effect.operations).flatMap write) := by
  simp [loopEffects, operationsWhere, selectorCalls, h, LoopEffect.value?]

end Listing

namespace Emit

theorem yields_loopBody {σ : Scene} {b : Block} {next : Nat} {nodes code : Listing}
    {found made : List String} {write : Operation → Listing} {events : Operation → List String}
    (hnodes : Yields (Listing.blockNodes b.plan) (σ.enter b 0) nodes found (σ.enter b next))
    (hops : Yields (Listing.operations b.operations) (σ.enter b next) code made (σ.enter b next))
    (heffects : ∀ e ∈ b.effects, ∀ op ∈ e.operations,
      Yields (Listing.ownOperation (some op)) (σ.enter b next) (write op) (events op) (σ.enter b next))
    (id : Nat) (kind : List Expression → LoopEffect) :
    Yields (Listing.loopBody id kind b) σ
      (nodes ++ code ++ Listing.loopEffects id kind b.effects write ++ Listing.returning b.returns)
      (found ++ (made ++ (b.effects.flatMap Effect.operations).flatMap events)) σ := by
  have hregular := yields_effectOperations heffects (fun es => kind es == .regular)
  have hselected := yields_selectorEffects heffects id 0 (fun es => (kind es).value?.isSome)
  have hfixed := yields_effectOperations heffects (fun es => kind es == .keyOnly)
  have hrun : Yields (Listing.loopBody id kind b) σ
      (nodes ++ code ++ Listing.loopEffects id kind b.effects write ++ Listing.returning b.returns)
      (found ++ (made ++
        ((Listing.operationsWhere (fun es => kind es == .regular) b.effects).flatMap events ++
          ((Listing.operationsWhere (fun es => (kind es).value?.isSome) b.effects).flatMap events ++
            (Listing.operationsWhere (fun es => kind es == .keyOnly) b.effects).flatMap events)))) σ := by
    cases b
    rw [Listing.loopBody]
    refine .withBlock next (hnodes.bind (hops.bind (hregular.bind ?_)))
    refine (yields_rerun _ _).bind_of_nil (hselected.bind ?_)
    simpa [Listing.loopEffects] using hfixed.map _
  refine hrun.congr_events fun e => ?_
  have hperm := ((Listing.operationsWhere_perm kind b.effects).flatMap_right events).mem_iff (a := e)
  simp only [List.flatMap_append, List.mem_append] at hperm ⊢
  rw [← hperm, or_assoc]

end Emit

end JsxTemplate
