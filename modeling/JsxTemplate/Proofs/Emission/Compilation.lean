import JsxTemplate.Compile
import JsxTemplate.Proofs.Emission.Optimizer
import JsxTemplate.Proofs.Lowering.Reactivity

/-!
# Compilations with and without the optimizer

The optimizer of loops belongs to code generation alone. A compilation with it has the markup, the events
and the mistakes of one without it, and its code is a rearrangement of the other. The code without the
optimizer leads to no places of the template that the code with it does not lead to, and so it has a source
map if the other has one.
-/

namespace JsxTemplate

open Emit Listing

/-! ## Places of the template -/

def Piece.mapped (p : Piece) : List Fragment := p.code.filter Fragment.isMapped

namespace Listing

def mapped (l : Listing) : List Fragment := l.flatMap Piece.mapped

theorem mapped_eq (l : Listing) : l.mapped = l.code.filter Fragment.isMapped := by
  induction l with
  | nil => rfl
  | cons p l ih =>
    rw [mapped, List.flatMap_cons, Listing.code, List.filter_append, ← ih]
    rfl

theorem mapped_fragment {x : Fragment} (h : ¬ x.isMapped) : (Piece.fragment x).mapped = [] := by
  rw [Piece.mapped, Piece.code, List.filter_cons_of_neg h, List.filter_nil]

theorem mapped_function (parameters : List String) (body : Listing) :
    (Piece.function parameters body).mapped = body.mapped := by
  simp [Piece.mapped, Piece.code, Code.function, mapped_eq]

theorem mapped_nil : mapped [] = [] := rfl

theorem mapped_cons (p : Piece) (l : Listing) : mapped (p :: l) = p.mapped ++ l.mapped := rfl

theorem mapped_append (l r : Listing) : (l ++ r).mapped = l.mapped ++ r.mapped := List.flatMap_append

theorem mapped_callWithBlanks (blank name : String) (args : List (Option Listing)) :
    (callWithBlanks blank name args).mapped = args.flatMap fun a => (a.getD []).mapped :=
  flatMap_callWithBlanks (fun _ => mapped_fragment) blank name args

theorem mapped_rerunOf (body : Listing) : (rerunOf body).mapped = body.mapped := by
  unfold rerunOf
  split
  · next h =>
    rw [List.isEmpty_iff.mp h]
  · have heffect := flatMap_effectFunction (fun _ => mapped_fragment) body
    simpa [mapped, Piece.text, Piece.newline, mapped_fragment] using heffect

theorem mapped_selectorCalls (id index : Nat) (codes : List Listing) :
    (selectorCalls id index codes).mapped = codes.flatMap mapped := by
  induction codes generalizing index with
  | nil => rfl
  | cons code codes ih =>
    have ih := ih (index + 1)
    unfold selectorCalls at ih ⊢
    rw [List.zipIdx_cons, List.flatMap_cons, mapped_append, ih, List.flatMap_cons]
    simp [mapped, Piece.text, Piece.newline, mapped_fragment]

theorem mapped_flatMap {α : Type} (xs : List α) (f : α → Listing) :
    mapped (xs.flatMap f) = xs.flatMap fun x => (f x).mapped := List.flatMap_assoc

theorem mapped_loopEffects (id : Nat) (kind : List Expression → LoopEffect) (effects : List Effect)
    (write : Operation → Listing) :
    ((loopEffects id kind effects write).mapped).Perm
      ((effects.flatMap Effect.operations).flatMap fun op => (write op).mapped) := by
  have hperm := (operationsWhere_perm kind effects).flatMap_right fun op => (write op).mapped
  simp only [List.flatMap_append, operationsWhere] at hperm
  simpa only [loopEffects, operationsWhere, mapped_append, mapped_rerunOf, mapped_selectorCalls,
    mapped_flatMap, List.flatMap_map, List.flatMap_assoc] using hperm

theorem mapped_listing (p : LoopPlan) (κ : Ambient) (selectors : List Code) (body : Listing) :
    (p.listing κ selectors body).mapped =
      mapped (.ofCode (Code.getter (p.head.source.code κ.names))) ++ (body.mapped ++
        (mapped (((p.keyCode κ.names).map .ofCode).getD []) ++ (mapped (p.flags.getD []) ++
          mapped (((Code.selectorSetup p.id selectors).map .ofCode).getD [])))) := by
  have hdeclarations : (ofCode (Code.selectorDeclarations p.id selectors.length)).mapped = [] := by
    refine flatMap_ofCode (fun _ => mapped_fragment) fun x hx => ?_
    obtain ⟨i, -, hx⟩ := List.mem_flatMap.mp hx
    simp only [List.mem_cons, List.not_mem_nil, or_false] at hx
    rcases hx with rfl | rfl <;> simp
  have hnewline : Piece.newline.mapped = [] := rfl
  have hmake : (Piece.make p.id).mapped = [] := rfl
  simp only [LoopPlan.listing, mapped_append, mapped_cons, hnewline, hdeclarations, hmake,
    mapped_callWithBlanks, List.flatMap_cons, List.flatMap_nil, List.nil_append, List.append_nil,
    Option.getD_some, mapped_function, mapped_nil]

theorem Rearranged.mapped_subset {l l' : Listing} (h : Rearranged l l') {x : Fragment}
    (hx : x ∈ l'.mapped) : x ∈ l.mapped := by
  induction h with
  | nil => exact hx
  | @piece p rest rest' hp hrest ih =>
    rw [mapped_cons, List.mem_append] at hx ⊢
    exact hx.imp_right ih
  | function hbody hrest ihbody ih =>
    rw [mapped_cons, mapped_function, List.mem_append] at hx ⊢
    exact hx.imp ihbody ih
  | @loop p κ hκ around around' next front front' rest rest' hfront heffects hrest ihfront iheffects ih =>
    have hmapped := (mapped_loopEffects p.id (p.kind true) p.render.effects
      (p.effectScene ⟨κ, around⟩ next).write).mem_iff (a := x)
    have heffects : x ∈ (p.effectOperations.flatMap fun op =>
        ((p.effectScene ⟨κ.plain, around'⟩ next).write op).mapped) →
        x ∈ mapped (loopEffects p.id (p.kind true) p.render.effects
          (p.effectScene ⟨κ, around⟩ next).write) := by
      intro hx
      obtain ⟨op, hop, hx⟩ := List.mem_flatMap.mp hx
      exact hmapped.mpr (List.mem_flatMap.mpr ⟨op, hop, iheffects op hop hx⟩)
    simp only [mapped_append, mapped_listing, mapped_rerunOf, mapped_flatMap, List.mem_append,
      Code.selectorSetup, List.isEmpty_nil, if_true, Option.map_none, Option.getD_none, mapped_nil,
      List.not_mem_nil, or_false] at hx ⊢
    rcases hx with (hx | ((hx | hx) | hx) | hx | hx) | hx
    · exact Or.inl (Or.inl hx)
    · exact Or.inl (Or.inr (Or.inl (Or.inl (Or.inl (ihfront hx)))))
    · exact Or.inl (Or.inr (Or.inl (Or.inl (Or.inr (heffects hx)))))
    · exact Or.inl (Or.inr (Or.inl (Or.inr hx)))
    · exact Or.inl (Or.inr (Or.inr (Or.inl hx)))
    · exact Or.inl (Or.inr (Or.inr (Or.inr (Or.inl hx))))
    · exact Or.inr (ih hx)

end Listing

/-- The places of the template that a fragment leads to. -/
def Fragment.places : Fragment → List Position
  | .mapped _ loc _ => if loc.isStub then [] else [loc.start, loc.stop]
  | _ => []

theorem Code.source_mappingsFrom (depth : Nat) (place : TextPlace) (code : Code) :
    (Code.mappingsFrom depth place code).map Mapping.source = code.flatMap Fragment.places := by
  induction code generalizing depth place with
  | nil => rfl
  | cons x code ih =>
    have hx : ∀ start stop, (x.mappings start stop).map Mapping.source = x.places := by
      intro start stop
      cases x with
      | mapped text loc name =>
        simp only [Fragment.mappings, Fragment.places]
        split <;> rfl
      | _ => rfl
    rw [Code.mappingsFrom, List.map_append, hx, ih, List.flatMap_cons]

theorem SourceMap.ofMappings_isOk (file source : String) (code : Code) :
    (∃ m, SourceMap.ofMappings file source code.mappings = .ok m) ↔
      ∀ x ∈ code, ∀ p ∈ x.places, Text.isBoundary source (sourceOffset source p.offset) := by
  have hplaces : code.mappings.all (isBetweenCharacters source) =
      (code.flatMap Fragment.places).all fun p => Text.isBoundary source (sourceOffset source p.offset) := by
    rw [← Code.source_mappingsFrom 0 ⟨0, 0⟩, List.all_map]
    rfl
  have hall : (∃ m, SourceMap.ofMappings file source code.mappings = .ok m) ↔
      code.mappings.all (isBetweenCharacters source) = true := by
    unfold SourceMap.ofMappings
    split <;> simp_all
  rw [hall, hplaces]
  simp only [List.all_eq_true, List.mem_flatMap]
  exact ⟨fun h x hx p hp => h p ⟨x, hx, hp⟩, fun h p ⟨x, hx, hp⟩ => h x hx p hp⟩

/-! ## Compilations -/

theorem Emitter.sortedDelegates_congr {s t : Emitter} (hs : s.delegates.Nodup) (ht : t.delegates.Nodup)
    (hmem : ∀ e, e ∈ s.delegates ↔ e ∈ t.delegates) : s.sortedDelegates = t.sortedDelegates := by
  refine List.Perm.eq_of_pairwise (fun a b _ _ hab hba => ?_) s.sortedDelegates_sorted
    t.sortedDelegates_sorted ?_
  · exact String.le_antisymm hab hba
  · have hperm := (List.perm_ext_iff_of_nodup hs ht).mpr hmem
    exact (List.mergeSort_perm _ _).trans (hperm.trans (List.mergeSort_perm _ _).symm)

namespace Emit

theorem gathers_mapM {α β : Type} {f : α → Emit β}
    (h : ∀ a s, Gathers s.delegates [] (f a s).2.delegates) (l : List α) (s : Emitter) :
    Gathers s.delegates [] (l.mapM f s).2.delegates := by
  induction l generalizing s with
  | nil => exact ⟨fun e => by rw [or_iff_left List.not_mem_nil]; rfl, id⟩
  | cons a l ih =>
    rw [List.mapM_cons]
    exact (h a s).trans (ih (f a s).2)

theorem gathers_moduleStatements (plan : RenderPlan) (s : Emitter) :
    Gathers s.delegates [] (moduleStatements plan s).2.delegates := by
  have hhelper : ∀ name (s : Emitter), Gathers s.delegates [] (helper name s).2.delegates :=
    fun name s => (yields_helper s.scene name s rfl).2.2
  have htemplates := gathers_mapM (f := fun x : String × Nat =>
    templateStatement x.2 x.1 (plan.rootTemplates.contains x.2))
    (fun _ => hhelper "template") plan.templates.zipIdx s
  exact htemplates.trans (gathers_mapM (f := eventStatement) (fun _ => hhelper "delegateEvents") _ _)

end Emit

/-- What is wanted of the code, with the optimizer or without it. -/
def CompileOptions.optimizing (o : CompileOptions) (optimize : Bool) : CompileOptions :=
  { o with optimizeLoops := optimize }

namespace RenderPlan

variable (plan : RenderPlan) (o : CompileOptions)

theorem generate_rearranged :
    Rearranged (plan.generate (o.optimizing true).emitting o.runtimeModule).listing
      (plan.generate (o.optimizing false).emitting o.runtimeModule).listing ∧
    (plan.generate (o.optimizing true).emitting o.runtimeModule).delegatedEvents =
      (plan.generate (o.optimizing false).emitting o.runtimeModule).delegatedEvents := by
  obtain ⟨body, body', events, hx, hy, hrel, -⟩ :=
    (Correspondence.optimizer_body plan.block).renderExpression
      (σ := (Emitter.ofPlan (o.optimizing true).emitting plan).scene)
      (τ := (Emitter.ofPlan (o.optimizing false).emitting plan).scene) ⟨⟨rfl, rfl⟩, rfl⟩
  obtain ⟨hbody, -, hgathered⟩ := hx (Emitter.ofPlan (o.optimizing true).emitting plan) rfl
  obtain ⟨hbody', -, hgathered'⟩ := hy (Emitter.ofPlan (o.optimizing false).emitting plan) rfl
  constructor
  · rw [← hbody, ← hbody'] at hrel
    exact hrel
  · have hevents := hgathered.trans (gathers_moduleStatements plan _)
    have hevents' := hgathered'.trans (gathers_moduleStatements plan _)
    exact Emitter.sortedDelegates_congr (hevents.nodup .nil) (hevents'.nodup .nil)
      fun e => (hevents.mem e).trans (hevents'.mem e).symm

end RenderPlan

/-- Whether two compilations have the same markup, events and mistakes. -/
structure Compilation.Agrees (c c' : Compilation) : Prop where
  templates : c.templates = c'.templates
  rootTemplate : c.rootTemplate = c'.rootTemplate
  delegatedEvents : c.delegatedEvents = c'.delegatedEvents
  errors : c.errors = c'.errors

theorem Listing.Rearranged.places {l l' : Listing} (h : Rearranged l l') {P : Position → Prop}
    (hl : ∀ x ∈ l.code, ∀ p ∈ x.places, P p) : ∀ x ∈ l'.code, ∀ p ∈ x.places, P p := by
  intro x hx p hp
  have hmapped : x.isMapped := by
    cases x with
    | mapped text loc name => rfl
    | _ => exact absurd hp List.not_mem_nil
  have hmem : x ∈ l'.mapped := by
    rw [Listing.mapped_eq]
    exact List.mem_filter.mpr ⟨hx, hmapped⟩
  have := h.mapped_subset hmem
  rw [Listing.mapped_eq] at this
  exact hl x (List.mem_filter.mp this).1 p hp

theorem RenderPlan.sourceMap_ok (plan : RenderPlan) (o : CompileOptions) {l l' : Listing}
    (h : Rearranged l l') {m : Option SourceMap} (hm : plan.sourceMap o l.code = .ok m) :
    ∃ m', plan.sourceMap o l'.code = .ok m' := by
  unfold RenderPlan.sourceMap at hm ⊢
  split at hm
  · next hwanted =>
    have hon : ∃ m, SourceMap.ofMappings o.filename plan.source l.code.mappings = .ok m := by
      cases hmade : SourceMap.ofMappings o.filename plan.source l.code.mappings with
      | ok m => exact ⟨m, rfl⟩
      | error fault =>
        rw [hmade] at hm
        cases hm
    rw [SourceMap.ofMappings_isOk] at hon
    obtain ⟨m', hm'⟩ := (SourceMap.ofMappings_isOk o.filename plan.source l'.code).mpr (h.places hon)
    exact ⟨some m', by rw [if_pos hwanted, hm']; rfl⟩
  · next hwanted => exact ⟨none, by rw [if_neg hwanted]⟩

theorem RenderPlan.compile_agrees (plan : RenderPlan) (o : CompileOptions) (errors : List Diagnostic) :
    (∀ c, plan.compile (o.optimizing true) errors = .ok c →
      ∃ c', plan.compile (o.optimizing false) errors = .ok c' ∧ c.Agrees c') ∧
    (o.sourceMap = false → ∃ c, plan.compile (o.optimizing true) errors = .ok c) := by
  obtain ⟨hrearranged, hevents⟩ := plan.generate_rearranged o
  constructor
  · intro c hc
    cases hm : plan.sourceMap o (plan.generate (o.optimizing true).emitting o.runtimeModule).code with
    | error fault =>
      have hfault : plan.compile (o.optimizing true) errors = .error fault := congrArg (Except.map _) hm
      rw [hfault] at hc
      cases hc
    | ok m =>
      obtain ⟨m', hm'⟩ := plan.sourceMap_ok o hrearranged hm
      have hon : plan.compile (o.optimizing true) errors = .ok _ := congrArg (Except.map _) hm
      have hoff : plan.compile (o.optimizing false) errors = .ok _ := congrArg (Except.map _) hm'
      rw [hon] at hc
      cases hc
      exact ⟨_, hoff, rfl, rfl, hevents, rfl⟩
  · intro hmap
    have hm : plan.sourceMap o (plan.generate (o.optimizing true).emitting o.runtimeModule).code =
        .ok none := by
      rw [RenderPlan.sourceMap, hmap]
      rfl
    exact ⟨_, congrArg (Except.map _) hm⟩

/-- How what comes of a compilation with the optimizer is related to what comes of one without it: it is
ended by the same mistake, and if there is a result with the optimizer, then there is one without it that
agrees. Conversely, there is a result with the optimizer at least if no source map is wanted. -/
structure Compilation.Outcomes (sourceMap : Bool) (on off : Except Failure Compilation) : Prop where
  mistake : ∀ d, on = .error (.mistake d) ↔ off = .error (.mistake d)
  result : ∀ c, on = .ok c → ∃ c', off = .ok c' ∧ c.Agrees c'
  made : sourceMap = false → ∀ c', off = .ok c' → ∃ c, on = .ok c

namespace Compilation.Outcomes

variable {sourceMap : Bool} {on off : Except Failure Compilation}

theorem error (sourceMap : Bool) (f : Failure) : Outcomes sourceMap (.error f) (.error f) where
  mistake _ := Iff.rfl
  result c hc := by cases hc
  made _ c hc := by cases hc

theorem addErrors (h : Outcomes sourceMap on off) (errors : List Diagnostic) :
    Outcomes sourceMap (on.map (Compilation.addErrors errors))
      (off.map (Compilation.addErrors errors)) := by
  have herror : ∀ (x : Except Failure Compilation) f,
      x.map (Compilation.addErrors errors) = .error f ↔ x = .error f := by
    intro x f
    cases x <;> simp [Except.map]
  have hok : ∀ (x : Except Failure Compilation) c, x.map (Compilation.addErrors errors) = .ok c ↔
      ∃ c₀, x = .ok c₀ ∧ c₀.addErrors errors = c := by
    intro x c
    cases x <;> simp [Except.map]
  refine ⟨fun d => ?_, fun c hc => ?_, fun hmap c' hc' => ?_⟩
  · rw [herror, herror]
    exact h.mistake d
  · obtain ⟨c, hon, rfl⟩ := (hok _ _).mp hc
    obtain ⟨c', hoff, hagrees⟩ := h.result c hon
    exact ⟨_, (hok _ _).mpr ⟨c', hoff, rfl⟩, hagrees.templates, hagrees.rootTemplate,
      hagrees.delegatedEvents, congrArg (errors ++ ·) hagrees.errors⟩
  · obtain ⟨c', hoff, rfl⟩ := (hok _ _).mp hc'
    obtain ⟨c, hon⟩ := h.made hmap c' hoff
    exact ⟨_, (hok _ _).mpr ⟨c, hon, rfl⟩⟩

theorem ofPlan (plan : RenderPlan) (o : CompileOptions) (errors : List Diagnostic) :
    Outcomes o.sourceMap ((plan.compile (o.optimizing true) errors).mapError .cut)
      ((plan.compile (o.optimizing false) errors).mapError .cut) := by
  obtain ⟨hresult, hmade⟩ := plan.compile_agrees o errors
  have hcut : ∀ (x : Except Text.CutFault Compilation) d,
      x.mapError Failure.cut ≠ .error (.mistake d) := by
    intro x d
    cases x <;> simp [Except.mapError]
  refine ⟨fun d => iff_of_false (hcut _ d) (hcut _ d), fun c hc => ?_, fun hmap _ _ => ?_⟩
  · cases hon : plan.compile (o.optimizing true) errors with
    | ok c₁ =>
      rw [hon] at hc
      cases hc
      obtain ⟨c', hoff, hagrees⟩ := hresult c hon
      exact ⟨c', by rw [hoff]; rfl, hagrees⟩
    | error fault =>
      rw [hon] at hc
      cases hc
  · obtain ⟨c, hon⟩ := hmade hmap
    exact ⟨c, by rw [hon]; rfl⟩

end Compilation.Outcomes

theorem Template.compile_outcomes (t : Template) (o : CompileOptions) (extensions : Extensions) :
    Compilation.Outcomes o.sourceMap (t.compile (o.optimizing true) extensions).outcome
      (t.compile (o.optimizing false) extensions).outcome := by
  -- lowering does not know of the optimizer
  have hlowering : ∀ optimize, (o.optimizing optimize).lowering = o.lowering := fun _ => rfl
  have hcollect : ∀ optimize, (o.optimizing optimize).collectErrors = o.collectErrors := fun _ => rfl
  simp only [Template.compile, hlowering, hcollect]
  split
  · exact .error _ _
  · exact .error _ _
  · exact .ofPlan _ _ _

theorem compile_optimizing (o : CompileOptions) (extensions : Extensions) (source : String) :
    let on := compile (o.optimizing true) extensions source
    let off := compile (o.optimizing false) extensions source
    on.reported = off.reported ∧ on.remarks = off.remarks ∧
      Compilation.Outcomes o.sourceMap on.outcome off.outcome := by
  have htemplate := (Template.read o.reading source).1.compile_outcomes o extensions
  have hread : ∀ optimize, (o.optimizing optimize).reading = o.reading := fun _ => rfl
  have hcollect : ∀ optimize, (o.optimizing optimize).collectErrors = o.collectErrors := fun _ => rfl
  simp only [compile, hread, hcollect]
  split
  · exact ⟨rfl, rfl, .error _ _⟩
  · exact ⟨rfl, rfl, htemplate.addErrors _⟩

/-! ## The main result -/

/-- How the code of a loop is related in two states, in the first of which there is the optimizer. The
effects are those of the loop in three groups, and those in their own order. Each of their operations is
written in the same way, up to the loops inside it. -/
def LoopPlan.Reordered (l : LoopPlan) (s s' : Emitter) : Prop :=
  ∃ next front front',
    (Listing.loop l s).1 = l.listing s.scene.toAmbient (l.selectors s.scene.toAmbient)
      (front ++ loopEffects l.id (l.kind true) l.render.effects (l.effectScene s.scene next).write
        ++ Listing.returning l.render.returns) ∧
    (Listing.loop l s').1 = l.listing s'.scene.toAmbient []
      (front' ++ rerunOf (l.effectOperations.flatMap (l.effectScene s'.scene next).write)
        ++ Listing.returning l.render.returns) ∧
    Rearranged front front' ∧
    ∀ op ∈ l.effectOperations,
      Rearranged ((l.effectScene s.scene next).write op) ((l.effectScene s'.scene next).write op) ∧
      (op.blocks = [] → (l.effectScene s.scene next).write op = (l.effectScene s'.scene next).write op)

theorem LoopPlan.reordered (l : LoopPlan) {s s' : Emitter} (hs : s.options.optimizeLoops = true)
    (hs' : s'.scene.toAmbient = s.scene.toAmbient.plain) : l.Reordered s s' := by
  have hscene : s'.scene = ⟨s.scene.toAmbient.plain, s'.blocks⟩ := by
    rw [← hs']
    rfl
  obtain ⟨next, front, front', events, hx, hy, hfront, heffects⟩ :=
    Correspondence.yields_loop_both (κ := s.scene.toAmbient) (Correspondence.optimizer_body l.render) hs
      s.blocks s'.blocks
  refine ⟨next, front, front', (hx s rfl).1, ?_, hfront, fun op hop => ?_⟩
  · rw [hscene]
    exact (hy s' hscene).1
  · rw [hscene]
    exact ⟨heffects op hop, fun hblocks => Scene.write_plain hblocks hs rfl⟩

theorem blocks_of_mem_effects (o : LoweringOptions) (t : Template) {b : Block}
    (hb : Part.block b ∈ (t.lower o .none).finish.block.parts) {e : Effect} (he : e ∈ b.effects)
    {op : Operation} (hop : op ∈ e.operations) : op.blocks = [] := by
  have hmem : Part.effect e ∈ (t.lower o .none).finish.block.parts := by
    refine Block.parts_closed _ b hb ?_
    rw [Block.parts_eq]
    have heffect := Effect.mem_partsOf he
    simp [heffect]
  obtain ⟨-, hreactive⟩ := allows_of_mem_finish onceRule_isOpen o t hmem (by simp)
  have hparts := hreactive.bare op hop
  cases op with
  | branch b into =>
    obtain ⟨id, condition, positive, negative, once⟩ := b
    simp [Operation.parts, Branch.parts] at hparts
  | setNodes | createNodes | loop | component => simp [Operation.parts] at hparts
  | _ => rfl

/-- Comparisons with keys are treated specially without a change of anything but the order in which the
operations in the effects of loops are run. Without added steps, no operation of an effect has blocks, and
so each of them is written in the same way. -/
theorem optimizer_only_reorders_effects :
    (∀ (o : CompileOptions) (extensions : Extensions) (source : String),
      let on := compile (o.optimizing true) extensions source
      let off := compile (o.optimizing false) extensions source
      on.reported = off.reported ∧ on.remarks = off.remarks ∧
        Compilation.Outcomes o.sourceMap on.outcome off.outcome) ∧
    (∀ (o : CompileOptions) (plan : RenderPlan),
      Rearranged (plan.generate (o.optimizing true).emitting o.runtimeModule).listing
        (plan.generate (o.optimizing false).emitting o.runtimeModule).listing) ∧
    (∀ (l : LoopPlan) (s s' : Emitter), s.options.optimizeLoops = true →
      s'.scene.toAmbient = s.scene.toAmbient.plain → l.Reordered s s') ∧
    (∀ l : LoopPlan, (l.operationsOf (· == .regular) ++ l.operationsOf (·.value?.isSome)
      ++ l.operationsOf (· == .keyOnly)).Perm l.effectOperations) ∧
    (∀ (o : LoweringOptions) (t : Template) (b : Block),
      Part.block b ∈ (t.lower o .none).finish.block.parts →
        ∀ e ∈ b.effects, ∀ op ∈ e.operations, op.blocks = []) := by
  refine ⟨compile_optimizing, fun o plan => (plan.generate_rearranged o).1, ?_, ?_, ?_⟩
  · intro l s s' hs hs'
    exact l.reordered hs hs'
  · intro l
    exact operationsWhere_perm (l.kind true) l.render.effects
  · intro o t b hb e he op hop
    exact blocks_of_mem_effects o t hb he hop

/-- A loop over `rows` with the key `row.id`, in which something depends on the key alone, something else
compares the key with a value from outside, and a text may change. -/
def rowLoop : LoopPlan :=
  let value := Expression.ofScript
  let render : Block := ⟨.stub, ⟨none, false, false, false, none,
      [⟨some 1, true, false, false, none, [], some 0, false, none⟩], none, false, none⟩,
    [⟨[value "row.id"], [.setHtml 1 (value "row.id")]⟩,
      ⟨[value "id === row.id"], [.setHtml 1 (value "id === row.id")]⟩,
      ⟨[value "row.text"], [.setText 1 [value "row.text"] false]⟩], [], [1]⟩
  ⟨0, ⟨value "rows", some (value "row"), none, none⟩, some (value "row.id"), render, false, false, true⟩

def writing (optimizeLoops : Bool) : Emitter := ⟨⟨false, optimizeLoops⟩, false, [], [], [], 0, []⟩

/-- In the loop there are effects of all three kinds, which are reordered. -/
theorem optimizer_only_reorders_effects_rows :
    (rowLoop.render.effects.map fun e => rowLoop.kind true e.expressions) =
      [.keyOnly, .selector (.ofScript "id"), .regular] ∧
    (writing true).options.optimizeLoops = true ∧
    (writing false).scene.toAmbient = (writing true).scene.toAmbient.plain ∧
    rowLoop.Reordered (writing true) (writing false) :=
  ⟨by decide +kernel, rfl, rfl, optimizer_only_reorders_effects.2.2.1 rowLoop _ _ rfl rfl⟩

/-! ## Code that is not as it should be -/

def compiled (source : String) : Option Compilation :=
  (compile ⟨"index.jsx", "vue", false, false, true, false, fun _ => false⟩ .none source).outcome.toOption

/-- The text of a component is set on a variable, but no helper is there that could give it a value. -/
theorem text_of_component_undeclared :
    (compiled "<Comp v-text=\x7bx\x7d/>").map Compilation.helpers =
      some ["createComponent", "toDisplayString", "setText", "renderEffect"] := by
  decide +kernel

/-- A template without children is passed over as a node, but there is none in the markup. -/
theorem child_counted_without_node :
    (compiled "<div><template/><b id=\x7bx\x7d/></div>").map (fun c => (c.templates, c.helpers)) =
      some (["<div><b></b></div>"], ["child", "next", "setProp", "renderEffect", "template"]) := by
  decide +kernel

/-- The element before a component is put in behind it. -/
theorem clone_inserted_behind_component :
    (compiled "<p><div/><A/></p>").map Compilation.code =
      some ("(() => \x7b\n  const n2 = t1()\n  const n0 = t0()\n  _setInsertionState(n2)\n" ++
        "  const n1 = _createComponent(A)\n  _insert(n0, n2)\n  return n2\n\x7d)()") := by
  decide +kernel

/-- What is yielded is read again outside of its function, where it cannot be read, and so no markup is made
for the element in it. -/
theorem element_behind_yield_kept :
    (compiled "<div>\x7bfunction*()\x7b return <p>\x7byield <b/>\x7d</p> \x7d\x7d</div>").map
        Compilation.templates = some ["<p> </p>", "<div></div>"] := by
  decide +kernel

end JsxTemplate
