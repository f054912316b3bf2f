import JsxTemplate.Proofs.Emission.Correspondence

/-!
# The code of loops

The code of a loop is put together from that of its body (`LoopPlan.listing`). Only the selectors and the
order of the effects in the body depend on what is wanted for loops, so that loops correspond in every run
in which the same is wanted for them (`Correspondence.loops_of_same`).
-/

namespace JsxTemplate

open Emit

namespace LoopPlan

variable (l : LoopPlan)

def kind (optimize : Bool) : List Expression → LoopEffect :=
  LoopEffect.ofExpressions optimize l.head l.keyProperty

def selected (optimize : Bool) : List Expression :=
  l.render.effects.filterMap fun effect => (l.kind optimize effect.expressions).value?

def keyCode (names : Renaming) : Option Code :=
  l.keyProperty.map fun e =>
    l.head.parameters ++ .code " => (" :: e.code (names.push l.head.shadows) ++ [.code ")"]

def flags : Option Listing :=
  if loopFlags l.onlyChild l.component l.once == 0 then none
  else some [.text (toString (loopFlags l.onlyChild l.component l.once))]

def listing (κ : Ambient) (selectors : List Code) (body : Listing) : Listing :=
  .newline :: Listing.ofCode (Code.selectorDeclarations l.id selectors.length) ++ .make l.id
    :: Listing.callWithBlanks "undefined" ("_" ++ "createFor")
      [some (.ofCode (Code.getter (l.head.source.code κ.names))),
        some [.function (FunctionScope.ofLoop κ.depth l.head).parameters body],
        (l.keyCode κ.names).map .ofCode, l.flags, (Code.selectorSetup l.id selectors).map .ofCode]

def selectors (κ : Ambient) : List Code :=
  (l.selected κ.options.optimizeLoops).map fun e => e.code κ.names

def bodyScene (σ : Scene) : Scene :=
  ⟨(FunctionScope.ofLoop σ.depth l.head).inside σ.toAmbient, σ.blocks⟩

end LoopPlan

namespace Emit

variable {σ : Scene}

theorem yields_expression (σ : Scene) (e : Expression) :
    Yields (expression e) σ (e.code σ.names) [] σ :=
  .of_delegates_eq (by rintro s rfl; exact ⟨rfl, rfl⟩) fun _ => rfl

theorem yields_loopKey (σ : Scene) (l : LoopPlan) :
    Yields (loopKey l.head l.keyProperty) σ (l.keyCode σ.names) [] σ := by
  unfold LoopPlan.keyCode
  cases l.keyProperty with
  | none => exact .pure σ none
  | some e =>
    refine .bind_of_nil (.withNames (yields_expression (σ.push l.head.shadows) e)) ?_
    exact .pure σ _

theorem yields_loop {l : LoopPlan} {body : Listing} {events : List String}
    (hbody : Yields (Listing.loopBody l.id (l.kind σ.options.optimizeLoops) l.render) (l.bodyScene σ)
      body events (l.bodyScene σ)) :
    Yields (Listing.loop l) σ (l.listing σ.toAmbient (l.selectors σ.toAmbient) body) events σ := by
  obtain ⟨id, head, keyProperty, render, once, component, onlyChild⟩ := l
  have hkey := yields_loopKey σ ⟨id, head, keyProperty, render, once, component, onlyChild⟩
  rw [Listing.loop]
  refine .bind_of_nil (yields_expression σ head.source) ?_
  refine .get (fun s hs => by rw [← hs]; rfl) ?_
  refine .bind_of_nil (.mapM (yields_expression σ) _) ?_
  refine .bind_of_nil (yields_enterLoop σ head) ?_
  have hbody : Yields (Emit.withNames (head.scope σ.depth).names
      (Listing.loopBody id (LoopEffect.ofExpressions σ.options.optimizeLoops head keyProperty) render))
      σ.deeper body events σ.deeper := hbody.withNames
  rw [← List.append_nil events]
  refine .bind hbody ?_
  refine .bind_of_nil (yields_exitScope σ) ?_
  refine .bind_of_nil hkey ?_
  refine .bind_of_nil (yields_helper σ _) ?_
  exact .pure σ _

end Emit

namespace Correspondence

variable {C : Correspondence} {κ κ' : Ambient} {σ τ : Scene}

theorem isLevel_keyCode (l : LoopPlan) (names : Renaming) : ∀ c ∈ l.keyCode names, c.IsLevel := by
  intro c hc
  obtain ⟨e, -, rfl⟩ := Option.map_eq_some_iff.mp hc
  simp [isLevel_parameters]

theorem isLevel_selectorSetup (id : Nat) {values : List Code} (h : ∀ c ∈ values, c.IsLevel) :
    ∀ c ∈ Code.selectorSetup id values, c.IsLevel := by
  intro c hc
  simp only [Code.selectorSetup, Option.mem_def, Option.ite_none_left_eq_some, Option.some.injEq] at hc
  obtain ⟨-, rfl⟩ := hc
  refine Code.IsLevel.inside (Code.IsLevel.flatten fun c hc => ?_) _ _
  obtain ⟨⟨value, i⟩, hvalue, rfl⟩ := List.mem_map.mp hc
  exact Code.IsLevel.call "createSelector" (by simpa using h value (List.fst_mem_of_mem_zipIdx hvalue))

theorem isLevel_selectorDeclarations (id count : Nat) : (Code.selectorDeclarations id count).IsLevel := by
  rw [Code.selectorDeclarations, List.flatMap_def]
  refine Code.IsLevel.flatten fun c hc => ?_
  obtain ⟨i, -, rfl⟩ := List.mem_map.mp hc
  simp

theorem loopListing (hmatch : κ.Matches κ') (l : LoopPlan) {selectors : List Code}
    (hselectors : ∀ c ∈ selectors, c.IsLevel) {events : List String} {body body' : Listing}
    (hbody : C.Rel κ κ' [] events
      [.function (FunctionScope.ofLoop κ.depth l.head).parameters body]
      [.function (FunctionScope.ofLoop κ.depth l.head).parameters body']) :
    C.Rel κ κ' [] events (l.listing κ selectors body) (l.listing κ' selectors body') := by
  have hsource : l.head.source.code κ.names = l.head.source.code κ'.names :=
    Expression.code_congr _ hmatch.names
  have hkey : l.keyCode κ.names = l.keyCode κ'.names := by
    unfold LoopPlan.keyCode
    cases l.keyProperty with
    | none => rfl
    | some e => simp only [Option.map_some, e.code_congr (hmatch.names.push l.head.shadows)]
  have hflags : Maybe (C.Rel κ κ' []) [] l.flags l.flags := by
    unfold LoopPlan.flags
    split
    · exact .none
    · exact .some (C.flat (Listing.plain_text _))
  unfold LoopPlan.listing
  rw [hsource, hkey, ← hmatch.depth]
  have hcall := C.callWithBlanks "undefined" ("_" ++ "createFor")
    (.cons (.some (C.ofCode (l.head.source.isLevel_code κ'.names).getter)) (.cons (.some hbody)
      (.cons (option_ofCode (isLevel_keyCode l κ'.names)) (.cons hflags
        (.cons (option_ofCode (isLevel_selectorSetup l.id hselectors)) .nil)))))
  exact C.events (C.append (C.cons rfl (C.ofCode (isLevel_selectorDeclarations _ _))) (C.cons rfl hcall))
    (by simp)

theorem loops_of_same
    (hsame : ∀ {κ κ' : Ambient}, C.Compared κ κ' → κ.options.optimizeLoops = κ'.options.optimizeLoops) :
    C.Loops := by
  intro l hrender σ τ h
  have hmatch := C.alike h.1
  have hopens : (FunctionScope.ofLoop σ.depth l.head).Opens σ.depth := .loop l.head
  have hscene : l.bodyScene τ =
      ⟨(FunctionScope.ofLoop σ.depth l.head).inside τ.toAmbient, τ.blocks⟩ := by
    rw [LoopPlan.bodyScene, show τ.depth = σ.depth from hmatch.depth.symm]
  have hselectors : l.selectors σ.toAmbient = l.selectors τ.toAmbient := by
    unfold LoopPlan.selectors
    rw [hsame h.1]
    exact List.map_congr_left fun e _ => e.code_congr hmatch.names
  have hcompared : C.Compared (l.bodyScene σ).toAmbient (l.bodyScene τ).toAmbient := by
    rw [hscene]
    exact C.inside h.1 hopens
  obtain ⟨own, hown, body, body', events, hx, hy, hrel⟩ :=
    hrender.loopBody l.id (l.kind σ.options.optimizeLoops) hcompared
  have hσwritten : l.render.Written ((FunctionScope.ofLoop σ.depth l.head).inside σ.toAmbient) body := by
    rw [← hx.value]
    exact .loop _ _ σ.blocks
  have hτwritten : l.render.Written ((FunctionScope.ofLoop σ.depth l.head).inside τ.toAmbient) body' := by
    rw [← hy.value, hscene]
    exact .loop _ _ τ.blocks
  have hτ := yields_loop (l := l) (σ := τ) (by rw [← hsame h.1]; exact hy)
  rw [← hselectors] at hτ
  rw [hscene] at hrel
  exact ⟨_, _, events, yields_loop hx, hτ, loopListing hmatch l (by simp [LoopPlan.selectors])
    (C.function h.1 hopens hrender.covered hown hσwritten hτwritten hrel)⟩

/-- The code of two runs in which the same variables are replaced is the same. -/
def identity : Correspondence where
  Compared κ κ' := κ.Matches κ' ∧ κ.options.optimizeLoops = κ'.options.optimizeLoops
  Covers _ := True
  Rel _ _ _ _ l l' := l = l'
  alike h := h.1
  inside h _ := ⟨h.1.inside _, h.2⟩
  events h _ := h
  flat _ := rfl
  append h h' := by rw [h, h']
  framed _ h := by rw [h]
  rerun h := by rw [h]; exact ⟨rfl, rfl⟩
  function _ _ _ _ _ _ h := by rw [h]

theorem identity_body (b : Block) : identity.Body b := by
  refine body (loops_of_same ?_) fun _ _ => trivial
  intro κ κ' h
  exact h.2

end Correspondence

end JsxTemplate
