import JsxTemplate.Compile
import JsxTemplate.Proofs.Lowering.Walk

/-!
# Stopping at the first mistake

Two runs of the walk are compared: one stops at the first mistake, and the other goes on. Up to that
mistake they do the same (`InStep`). After it (`Parted`) the first run only goes back, and the mistake
stays the first one of the other run.

A loop whose names cannot be cut out of the template is a fault, not a mistake. The run that goes on may
come to such a loop behind the mistake at which the other run has stopped.
-/

namespace JsxTemplate

variable {errors : List Diagnostic} {e : Diagnostic}

/-- Whether two runs, of which the first stops at a mistake, have met none so far. -/
structure InStep (c c' : Context) : Prop where
  modeless : c.modeless = c'.modeless
  stops : c.options.collectErrors = false
  goesOn : c'.options.collectErrors = true
  aborted : c.aborted = false
  aborted' : c'.aborted = false
  errors : c.errors = []

/-- Whether two runs have met the same first mistake, where the first one has stopped. -/
structure Parted (c c' : Context) : Prop where
  aborted : c.aborted = true
  first : ∃ e, c.errors.head? = some e ∧ c'.errors.head? = some e
  fault : c'.fault = none → c.fault = none

theorem Grows.head? {c c' : Context} (h : Grows c c') (he : c.errors.head? = some e) :
    c'.errors.head? = some e := by
  obtain ⟨more, hmore⟩ := h.errors
  rw [← hmore, List.head?_append, he, Option.some_or]

namespace Parted

variable {c c' d d' : Context}

theorem grow (h : Parted c c') (hd : Grows c d) (hd' : Grows c' d') (hfault : d.fault = c.fault) :
    Parted d d' := by
  obtain ⟨e, he, he'⟩ := h.first
  exact
    { aborted := hd.aborted.mpr (Or.inl h.aborted)
      first := ⟨e, hd.head? he, hd'.head? he'⟩
      fault := fun hf => hfault.trans (h.fault (hd'.fault hf)) }

theorem growRight (h : Parted c c') (hd' : Grows c' d') : Parted c d' :=
  h.grow (.refl c) hd' rfl

end Parted

namespace InStep

variable {c c' d d' : Context}

theorem frame (h : InStep c c') : c.frame = c'.frame := by
  have heq : c.modeless.frame = c'.modeless.frame := by rw [h.modeless]
  exact heq

theorem after (h : InStep c c') (hd : Grows c d) (hd' : Grows c' d') (heq : d.modeless = d'.modeless) :
    InStep d d' ∨ Parted d d' := by
  have hstops : d.options.collectErrors = false := hd.options ▸ h.stops
  have herrors : d.modeless.errors = d'.modeless.errors := by rw [heq]
  have herrors : d.errors = d'.errors := herrors
  cases he : d.errors with
  | nil =>
    left
    refine
      { modeless := heq, stops := hstops, goesOn := hd'.options ▸ h.goesOn
        aborted := eq_false_of_ne_true fun ha => ?_
        aborted' := hd'.collects h.goesOn h.aborted', errors := he }
    rcases hd.aborted.mp ha with ha | ⟨-, hlt⟩
    · simp [h.aborted] at ha
    · simp [he] at hlt
  | cons e es =>
    right
    refine ⟨hd.aborted.mpr (Or.inr ⟨h.stops, ?_⟩), ⟨e, by rw [he]; rfl, ?_⟩, fun hf => ?_⟩
    · rw [h.errors, he]
      simp
    · rw [← herrors, he]
      rfl
    · have hfault : d.modeless.fault = d'.modeless.fault := by rw [heq]
      exact hfault.trans hf

end InStep

namespace Lower

/-- Whether two runs of an action stay in step with the same result, or part. -/
def Follows {α : Type} (x : Lower α) : Prop :=
  ∀ c c', InStep c c' →
    ((x c).1 = (x c').1 ∧ InStep (x c).2 (x c').2) ∨ Parted (x c).2 (x c').2

theorem Uniform.follows {α : Type} {x : Lower α} (h : Uniform x) : Follows x := by
  intro c c' hs
  have hresult : (x c).1 = (x c').1 := by rw [h.result c, h.result c', hs.modeless]
  have hstate : (x c).2.modeless = (x c').2.modeless := by rw [h.state c, h.state c', hs.modeless]
  exact (hs.after (h.grows c) (h.grows c') hstate).imp_left fun hs' => ⟨hresult, hs'⟩

/-- Whether two runs of an action can be compared, and whether it meets no fault after a stop. -/
structure Tracks {α : Type} (x : Lower α) : Prop where
  grows : Growing x
  idle : ∀ c, c.aborted = true → (x c).2.fault = c.fault
  follows : Follows x

namespace Tracks

variable {α β : Type}

theorem ofUniform {x : Lower α} (h : Uniform x) (hfault : ∀ c, (x c).2.fault = c.fault) : Tracks x :=
  ⟨h.grows, fun c _ => hfault c, h.follows⟩

theorem bind {x : Lower α} {f : α → Lower β} (hx : Tracks x) (hf : ∀ a, Tracks (f a)) :
    Tracks (x >>= f) where
  grows := hx.grows.bind fun a => (hf a).grows
  idle := by
    intro c ha
    have ha' := (hx.grows c).aborted.mpr (Or.inl ha)
    exact ((hf _).idle _ ha').trans (hx.idle c ha)
  follows := by
    intro c c' hs
    rcases hx.follows c c' hs with ⟨hresult, hs'⟩ | hp
    · rw [run_bind, run_bind, hresult]
      exact (hf _).follows _ _ hs'
    · exact Or.inr (hp.grow ((hf _).grows _) ((hf _).grows _) ((hf _).idle _ hp.aborted))

theorem unlessAborted {stop rest : Lower β} (hstop : Tracks stop) (hrest : Tracks rest) :
    Tracks (isAborted >>= fun aborted => if aborted then stop else rest) := by
  have hrun : ∀ c, (isAborted >>= fun aborted => if aborted then stop else rest) c =
      if c.aborted then stop c else rest c := by
    intro c
    rw [run_bind]
    exact run_ite _ _ _ _
  refine ⟨fun c => ?_, fun c ha => ?_, fun c c' hs => ?_⟩
  · rw [hrun]
    split
    · exact hstop.grows c
    · exact hrest.grows c
  · rw [hrun, if_pos ha]
    exact hstop.idle c ha
  · rw [hrun, hrun, if_neg (by simp [hs.aborted]), if_neg (by simp [hs.aborted'])]
    exact hrest.follows c c' hs

theorem compositional : Compositional Tracks where
  calm := fun h hd => .ofUniform h.toUniform fun c => (h.calm hd c).fault
  bind := .bind

end Tracks

theorem tracks_pushFrame (v : Visited) (index : Nat) : Tracks (pushFrame v index) :=
  .ofUniform (uniform_pushFrame v index) fun _ => rfl

theorem tracks_popFrame : Tracks popFrame := by
  refine .ofUniform uniform_popFrame fun c => ?_
  rw [popFrame_run]

theorem tracks_enterBlock (loc : Location) (isLoop : Bool) : Tracks (enterBlock loc isLoop) :=
  .ofUniform (uniform_enterBlock loc isLoop) fun _ => rfl

theorem tracks_exitBlock : Tracks exitBlock := by
  refine .ofUniform uniform_exitBlock fun c => ?_
  obtain ⟨_, _, _, _, _, _, _, _, _, h⟩ := exitBlock_state c
  rw [h]

section

variable {visit : Lower Unit} (hvisit : Tracks visit)

include hvisit

theorem tracks_nestedBlocks (roots : List Visited) : Tracks (nestedBlocks visit roots) := by
  induction roots with
  | nil => exact Tracks.compositional.pure _
  | cons r roots ih =>
    exact (tracks_pushFrame r 0).bind fun _ => (tracks_enterBlock _ _).bind fun _ =>
      hvisit.bind fun _ => tracks_exitBlock.bind fun block => tracks_popFrame.bind fun _ =>
        .unlessAborted (Tracks.compositional.pure _)
          (ih.bind fun rest => Tracks.compositional.pure _)

theorem tracks_lowerChildren (isFragment : Bool) (index : Nat) (children : List Visited) :
    Tracks (lowerChildren visit isFragment index children) := by
  induction children generalizing index with
  | nil => exact Tracks.compositional.pure _
  | cons child children ih =>
    have hadd : ∀ frame, Tracks (addChild isFragment frame) := fun frame =>
      .ofUniform (uniform_modifyFrame _) fun _ => rfl
    have hrest : Tracks (do
        let frame ← popFrame
        addChild isFragment frame
        lowerChildren visit isFragment (index + 1) children) :=
      tracks_popFrame.bind fun frame => (hadd frame).bind fun _ => ih _
    refine (tracks_pushFrame child index).bind fun _ => hvisit.bind fun _ => .unlessAborted
      (tracks_popFrame.bind fun _ => Tracks.compositional.pure _) ?_
    split
    · exact (Tracks.compositional.calm does_addToBlock rfl).bind fun _ => hrest
    · exact hrest

theorem follows_steps {step : Lower (List Exit)} (hstep : step ∈ steps .none visit) :
    Follows step := by
  simp only [steps, Extensions.none, List.append_nil, List.mem_cons, List.not_mem_nil, or_false] at hstep
  rcases hstep with rfl | rfl | rfl | rfl | rfl | rfl | rfl | rfl
  · exact does_onceStep.toUniform.follows
  · exact does_conditionStep.toUniform.follows
  · exact does_loopStep.toUniform.follows
  · exact does_referenceStep.toUniform.follows
  · exact does_elementStep.toUniform.follows
  · exact (Tracks.compositional.textStep (tracks_nestedBlocks hvisit)).follows
  · exact does_slotStep.toUniform.follows
  · exact (Tracks.compositional.childrenStep (tracks_lowerChildren hvisit)).follows

end

theorem follows_runSteps {steps : List (Lower (List Exit))}
    (hsteps : ∀ step ∈ steps, Growing step ∧ Follows step) (exits : List Exit) :
    Follows (runSteps steps exits) := by
  induction steps generalizing exits with
  | nil => exact (Uniform.pure _).follows
  | cons step steps ih =>
    intro c c' hs
    have htail : ∀ step ∈ steps, Growing step ∧ Follows step := fun s h =>
      hsteps s (List.mem_cons_of_mem _ h)
    have hgrows := related_runSteps .refl .trans fun s h => (htail s h).1
    rcases (hsteps step List.mem_cons_self).2 c c' hs with ⟨hresult, hs'⟩ | hp
    · rw [runSteps_cons, runSteps_cons, hs'.aborted, hs'.aborted', hs'.frame, hresult]
      split
      · exact Or.inl ⟨rfl, hs'⟩
      · exact ih htail _ _ _ hs'
    · right
      rw [runSteps_cons, runSteps_cons, hp.aborted, Bool.true_or, if_pos rfl]
      split
      · exact hp
      · exact hp.growRight (hgrows _ _)

theorem follows_runExits {exits : List Exit} (hexits : ∀ exit ∈ exits, exit.isOwn = true) :
    Follows (runExits .none exits) := by
  induction exits with
  | nil => exact (Uniform.pure _).follows
  | cons exit exits ih =>
    intro c c' hs
    have hrest : ∀ e ∈ exits, e.isOwn = true := fun e he => hexits e (List.mem_cons_of_mem _ he)
    rw [runExits_cons, runExits_cons, if_neg (by simp [hs.aborted]), if_neg (by simp [hs.aborted'])]
    rcases (does_runExit (hexits exit List.mem_cons_self)).toUniform.follows c c' hs with ⟨-, hs'⟩ | hp
    · exact ih hrest _ _ hs'
    · right
      rw [runExits_of_aborted hp.aborted]
      exact hp.growRight (growing_runExits hrest _)

theorem lowerNode_of_aborted {c : Context} (h : c.aborted = true) (depth : Nat) :
    (lowerNode .none depth c).2.fault = c.fault := by
  cases depth with
  | zero => rfl
  | succ depth =>
    have hstep : (onceStep c).2.aborted = true := (does_onceStep.grows c).aborted.mpr (Or.inl h)
    have hrun : runSteps (steps .none (lowerNode .none depth)) [] c = (none, (onceStep c).2) := by
      rw [steps, List.cons_append, runSteps_cons, hstep, Bool.true_or, if_pos rfl]
    rw [lowerNode_succ, hrun]
    exact (plain_onceStep.tidy c).fault

theorem tracks_lowerNode (depth : Nat) : Tracks (lowerNode .none depth) := by
  induction depth with
  | zero => exact Tracks.compositional.pure _
  | succ depth ih =>
    refine ⟨growing_lowerNode _, fun c ha => lowerNode_of_aborted ha _, fun c c' hs => ?_⟩
    have hsteps := follows_runSteps (fun step hstep =>
      ⟨growing_steps ih.grows hstep, follows_steps ih hstep⟩) [] c c' hs
    have hown : ∀ c left, (runSteps (steps .none (lowerNode .none depth)) [] c).1 = some left →
        ∀ exit ∈ left, exit.isOwn = true := fun c left hrun =>
      own_runSteps (fun step hstep c => own_steps hstep c) (by simp) hrun
    rcases hsteps with ⟨hresult, hs'⟩ | hp
    · rw [lowerNode_succ, lowerNode_succ, ← hresult]
      cases hrun : (runSteps (steps .none (lowerNode .none depth)) [] c).1 with
      | none => exact Or.inl ⟨rfl, hs'⟩
      | some left => exact follows_runExits (hown c left hrun) _ _ hs'
    · right
      have hstopped : (lowerNode .none (depth + 1) c).2 =
          (runSteps (steps .none (lowerNode .none depth)) [] c).2 := by
        rw [lowerNode_succ]
        cases (runSteps (steps .none (lowerNode .none depth)) [] c).1 with
        | none => rfl
        | some left => exact runExits_of_aborted hp.aborted left
      have hgoesOn : Grows (runSteps (steps .none (lowerNode .none depth)) [] c').2
          (lowerNode .none (depth + 1) c').2 := by
        rw [lowerNode_succ]
        cases hrun : (runSteps (steps .none (lowerNode .none depth)) [] c').1 with
        | none => exact .refl _
        | some left => exact growing_runExits (hown c' left hrun) _
      rw [hstopped]
      exact hp.growRight hgoesOn

end Lower

/-! ## Compilations -/

/-- How a compilation that stops at the first mistake is related to one that goes on. -/
structure ModesAgree (stopped collected : CompileResult) : Prop where
  first : stopped.reported.head? = collected.reported.head?
  mistake : ∀ compilation, collected.outcome = .ok compilation →
    ∀ e, stopped.outcome = .error (.mistake e) ↔ compilation.errors.head? = some e
  same : ∀ compilation, collected.outcome = .ok compilation → compilation.errors = [] →
    stopped.outcome = .ok compilation
  /-- If the compilation that goes on fails, it is for a piece that could not be cut out, and the other
  one fails too: for such a piece, or at the first mistake. -/
  cut : ∀ failure, collected.outcome = .error failure → (∃ fault, failure = .cut fault) ∧
    ((∃ fault, stopped.outcome = .error (.cut fault)) ∨
      ∃ e, collected.reported.head? = some e ∧ stopped.outcome = .error (.mistake e))

section

variable {o : CompileOptions} {t : Template}

theorem Template.compile_of_fault {fault : Text.CutFault}
    (h : (t.lower o.lowering .none).fault = some fault) :
    (t.compile o .none).outcome = .error (.cut fault) := by
  simp only [Template.compile, h]

theorem Template.compile_of_mistake (h : (t.lower o.lowering .none).fault = none)
    (hstops : o.collectErrors = false) (he : (t.lower o.lowering .none).errors.head? = some e) :
    (t.compile o .none).outcome = .error (.mistake e) := by
  obtain ⟨es, hes⟩ := List.head?_eq_some_iff.mp he
  simp only [Template.compile, h, hstops, hes]

theorem Template.compile_of_lowered (h : (t.lower o.lowering .none).fault = none)
    (hgoesOn : o.collectErrors = true ∨ (t.lower o.lowering .none).errors = []) :
    (t.compile o .none).outcome =
      ((t.lower o.lowering .none).finish.compile o (t.lower o.lowering .none).errors).mapError
        .cut := by
  rcases hgoesOn with hcollect | herrors
  · simp only [Template.compile, h, hcollect]
  · cases hcollect : o.collectErrors <;> simp only [Template.compile, h, hcollect, herrors]

theorem RenderPlan.errors_of_compile {plan : RenderPlan} {compilation : Compilation}
    (h : (plan.compile o errors).mapError Failure.cut = .ok compilation) :
    compilation.errors = errors := by
  rw [RenderPlan.compile] at h
  cases hmap : plan.sourceMap o (plan.generate o.emitting o.runtimeModule).code with
  | error fault =>
    rw [hmap] at h
    cases h
  | ok map =>
    rw [hmap] at h
    cases h
    rfl

theorem RenderPlan.fault_of_compile {plan : RenderPlan} {failure : Failure}
    (h : (plan.compile o errors).mapError Failure.cut = .error failure) :
    ∃ fault, failure = .cut fault := by
  cases hc : plan.compile o errors with
  | error fault =>
    rw [hc] at h
    cases h
    exact ⟨fault, rfl⟩
  | ok compilation =>
    rw [hc] at h
    cases h

end

theorem Template.lower_follows (o : CompileOptions) (t : Template) :
    InStep (t.lower { o with collectErrors := false }.lowering .none)
      (t.lower { o with collectErrors := true }.lowering .none) ∨
    Parted (t.lower { o with collectErrors := false }.lowering .none)
      (t.lower { o with collectErrors := true }.lowering .none) := by
  have hstart : InStep (Context.ofTemplate { o with collectErrors := false }.lowering t)
      (Context.ofTemplate { o with collectErrors := true }.lowering t) :=
    ⟨rfl, rfl, rfl, rfl, rfl, rfl⟩
  exact ((Lower.tracks_lowerNode t.depth).follows _ _ hstart).imp_left And.right

section

variable {o o' : CompileOptions} {t : Template} (ho' : o' = { o with collectErrors := true })

include ho'

theorem InStep.modesAgree (h : InStep (t.lower o.lowering .none) (t.lower o'.lowering .none)) :
    ModesAgree (t.compile o .none) (t.compile o' .none) := by
  have hcollects : o'.collectErrors = true := by rw [ho']
  generalize hl : t.lower o.lowering .none = l at h
  generalize hl' : t.lower o'.lowering .none = l' at h
  have hmodeless : l.modeless.fault = l'.modeless.fault ∧ l.modeless.errors = l'.modeless.errors ∧
      l.modeless.finish = l'.modeless.finish := by rw [h.modeless]; exact ⟨rfl, rfl, rfl⟩
  obtain ⟨hfault, herrors, hfinish⟩ : l.fault = l'.fault ∧ l.errors = l'.errors ∧
    l.finish = l'.finish := hmodeless
  have hnone : l'.errors = [] := herrors.symm.trans h.errors
  have hreported : (t.compile o' .none).reported = [] := by
    rw [← hnone, ← hl']
    rfl
  have hreported' : (t.compile o .none).reported = [] := by
    rw [← h.errors, ← hl]
    rfl
  cases hf : l'.fault with
  | some fault =>
    have hstopped := Template.compile_of_fault (hl ▸ hfault.trans hf)
    have hcollected := Template.compile_of_fault (hl' ▸ hf)
    refine ⟨by rw [hreported, hreported'], ?_, ?_, ?_⟩
    · intro compilation hok
      rw [hcollected] at hok
      cases hok
    · intro compilation hok
      rw [hcollected] at hok
      cases hok
    · intro failure hfail
      rw [hcollected] at hfail
      cases hfail
      exact ⟨⟨fault, rfl⟩, Or.inl ⟨fault, hstopped⟩⟩
  | none =>
    have hstopped := Template.compile_of_lowered (hl ▸ hfault.trans hf) (Or.inr (hl ▸ h.errors))
    have hcollected := Template.compile_of_lowered (hl' ▸ hf) (Or.inl hcollects)
    have hsame : (t.compile o .none).outcome = (t.compile o' .none).outcome := by
      rw [hstopped, hcollected, hl, hl', hfinish, herrors, ho']
      rfl
    refine ⟨by rw [hreported, hreported'], ?_, ?_, ?_⟩
    · intro compilation hok e
      rw [hsame, hok]
      rw [hcollected] at hok
      rw [RenderPlan.errors_of_compile hok, hl', hnone]
      simp
    · intro compilation hok _
      rw [hsame, hok]
    · intro failure hfail
      obtain ⟨fault, rfl⟩ := RenderPlan.fault_of_compile (hcollected ▸ hfail)
      exact ⟨⟨fault, rfl⟩, Or.inl ⟨fault, hsame.trans hfail⟩⟩

theorem Parted.modesAgree (ho : o.collectErrors = false)
    (h : Parted (t.lower o.lowering .none) (t.lower o'.lowering .none)) :
    ModesAgree (t.compile o .none) (t.compile o' .none) := by
  have hcollects : o'.collectErrors = true := by rw [ho']
  obtain ⟨e, he, he'⟩ := h.first
  have hstopped : (t.lower o.lowering .none).fault = none →
      (t.compile o .none).outcome = .error (.mistake e) := fun hf => Template.compile_of_mistake hf ho he
  have hcollected : ∀ {fault}, (t.lower o'.lowering .none).fault = some fault →
      (t.compile o' .none).outcome = .error (.cut fault) := Template.compile_of_fault
  have hok : ∀ {compilation}, (t.compile o' .none).outcome = .ok compilation →
      (t.compile o .none).outcome = .error (.mistake e) ∧ compilation.errors.head? = some e := by
    intro compilation hok
    cases hf : (t.lower o'.lowering .none).fault with
    | some fault =>
      rw [hcollected hf] at hok
      cases hok
    | none =>
      rw [Template.compile_of_lowered hf (Or.inl hcollects)] at hok
      rw [RenderPlan.errors_of_compile hok]
      exact ⟨hstopped (h.fault hf), he'⟩
  refine ⟨he.trans he'.symm, ?_, ?_, ?_⟩
  · intro compilation hc e'
    obtain ⟨hout, hhead⟩ := hok hc
    rw [hout, hhead]
    simp
  · intro compilation hc hnone
    obtain ⟨-, hhead⟩ := hok hc
    rw [hnone] at hhead
    cases hhead
  · intro failure hfail
    have hcut : ∃ fault, failure = .cut fault := by
      cases hf : (t.lower o'.lowering .none).fault with
      | some fault =>
        rw [hcollected hf] at hfail
        cases hfail
        exact ⟨fault, rfl⟩
      | none =>
        rw [Template.compile_of_lowered hf (Or.inl hcollects)] at hfail
        exact RenderPlan.fault_of_compile hfail
    refine ⟨hcut, ?_⟩
    cases hf : (t.lower o.lowering .none).fault with
    | some fault => exact Or.inl ⟨fault, Template.compile_of_fault hf⟩
    | none => exact Or.inr ⟨e, he', hstopped hf⟩

end

theorem Template.modesAgree_compile (o : CompileOptions) (t : Template) :
    ModesAgree (t.compile { o with collectErrors := false } .none)
      (t.compile { o with collectErrors := true } .none) := by
  rcases t.lower_follows o with h | h
  · exact h.modesAgree rfl
  · exact h.modesAgree rfl rfl

section

variable {o : CompileOptions} {source : String}

theorem compile_of_readable (h : (Template.read o.reading source).2 = []) :
    compile o .none source = (Template.read o.reading source).1.compile o .none := by
  have hmap : ∀ outcome : Except Failure Compilation,
      outcome.map (Compilation.addErrors []) = outcome := by
    intro outcome
    cases outcome <;> rfl
  simp only [compile, h, hmap, List.nil_append]
  split <;> simp_all

theorem compile_of_unreadable {es : List Diagnostic} (h : (Template.read o.reading source).2 = e :: es)
    (hstops : o.collectErrors = false) :
    compile o .none source = ⟨.error (.mistake e), e :: es, []⟩ := by
  simp only [compile, h, hstops]

theorem compile_of_collecting (h : (Template.read o.reading source).2 = errors)
    (hgoesOn : o.collectErrors = true) :
    compile o .none source =
      { (Template.read o.reading source).1.compile o .none with
        outcome := ((Template.read o.reading source).1.compile o .none).outcome.map
          (Compilation.addErrors errors)
        reported := errors ++ ((Template.read o.reading source).1.compile o .none).reported } := by
  simp only [compile, h, hgoesOn]

end

theorem modesAgree_of_unreadable {result : CompileResult}
    (hcut : ∀ failure, result.outcome = .error failure → ∃ fault, failure = .cut fault)
    (e : Diagnostic) (es : List Diagnostic) :
    ModesAgree ⟨.error (.mistake e), e :: es, []⟩
      { result with
        outcome := result.outcome.map (Compilation.addErrors (e :: es))
        reported := e :: es ++ result.reported } := by
  cases hr : result.outcome with
  | error failure =>
    refine ⟨rfl, fun _ h => ?_, fun _ h => ?_, fun failure' h => ?_⟩
    · cases h
    · cases h
    · cases h
      exact ⟨hcut failure hr, Or.inr ⟨e, rfl, rfl⟩⟩
  | ok compilation =>
    refine ⟨rfl, fun _ h e' => ?_, fun _ h hnone => ?_, fun _ h => ?_⟩
    · cases h
      simp [Compilation.addErrors]
    · cases h
      cases hnone
    · cases h

/-- A compilation that stops at the first mistake fails exactly if one that goes on reports a mistake,
and then with the first one; and otherwise both give the same. Only if a piece cannot be cut out of the
template, the compilation that goes on fails as well. -/
theorem compile_stops_at_first_mistake (o : CompileOptions) (source : String) (t : Template) :
    ModesAgree (compile { o with collectErrors := false } .none source)
      (compile { o with collectErrors := true } .none source) ∧
    ModesAgree (t.compile { o with collectErrors := false } .none)
      (t.compile { o with collectErrors := true } .none) := by
  refine ⟨?_, Template.modesAgree_compile o t⟩
  have hagree := Template.modesAgree_compile o (Template.read o.reading source).1
  cases hread : (Template.read o.reading source).2 with
  | nil =>
    rw [compile_of_readable (o := { o with collectErrors := false }) hread,
      compile_of_readable (o := { o with collectErrors := true }) hread]
    exact hagree
  | cons e es =>
    rw [compile_of_unreadable (o := { o with collectErrors := false }) hread rfl,
      compile_of_collecting (o := { o with collectErrors := true }) hread rfl]
    exact modesAgree_of_unreadable (fun failure h => (hagree.cut failure h).1) e es

/-- A template with a mistake, and behind it a loop with a no-break space in the place of its names: the
compilation that stops reports the mistake, and the one that goes on fails for the loop. -/
theorem compile_cut_behind_mistake :
    let item := fun name value => TagItem.attribute ⟨name, none, .stub, value, .stub⟩
    let element := fun item => Node.element ⟨"p", .element, [item], true, .stub⟩ []
    let t : Template := ⟨"", [element (item "v-show" none),
      element (item "v-for" (some ⟨"\u00a0 in list", false, .stub⟩))], .stub⟩
    let o : CompileOptions := ⟨"", "", false, false, false, true, fun _ => false⟩
    (t.compile { o with collectErrors := false } .none).outcome =
        .error (.mistake ⟨.showNoExpression, some .stub⟩) ∧
      (t.compile { o with collectErrors := true } .none).outcome = .error (.cut .inverted) := by
  constructor
  · exact Template.compile_of_mistake (by decide +kernel) rfl (by decide +kernel)
  · exact Template.compile_of_fault (by decide +kernel)

end JsxTemplate
