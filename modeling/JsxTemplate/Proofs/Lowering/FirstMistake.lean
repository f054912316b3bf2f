import JsxTemplate.Proofs.Lowering.Course
import JsxTemplate.Proofs.Lowering.Reports

/-!
# What a run that stops has reported

A run that stops at a mistake looks only between the steps of a visit whether it has to stop. So it may
report several mistakes. But they all come from one step at one element (`OneReport`), since after a stop
the run only goes back.
-/

namespace JsxTemplate

/-- Whether some mistakes can be reported by one step at one element of a template. -/
inductive OneReport (t : Template) : List Diagnostic → Prop where
  | few {mistakes : List Diagnostic} (h : mistakes.length ≤ 1) : OneReport t mistakes
  /-- The condition of a further branch is missing, and so is the branch before it. -/
  | condition {path : Path} {tag : Tag} {children : List Node} {d : Directive}
      (element : t.nodeAt? path = some (.element tag children))
      (directive : Lower.conditionDirective? tag = some d) (name : d.name ≠ "if" ∧ d.name ≠ "else")
      (missing : d.exp = none) :
      OneReport t [⟨.ifNoExpression, some d.loc⟩, ⟨.elseNoAdjacentIf, some tag.loc⟩]
  /-- The items of an element or a component are gathered. -/
  | items {path : Path} {tag : Tag} {children : List Node} {groups : List (List Diagnostic)}
      (element : t.nodeAt? path = some (.element tag children)) (type : tag.type ≠ .template)
      (each : List.Forall₂ (TagItem.CanReport tag children) tag.items groups) :
      OneReport t groups.flatten

/-! ## The run -/

/-- Whether a run that stops at a mistake has stopped if there is one, and has reported only what one step
reports. -/
structure Halting (t : Template) (c : Context) : Prop where
  stops : c.options.collectErrors = false
  aborted : c.aborted = true ↔ c.errors ≠ []
  report : OneReport t c.errors

namespace Halting

variable {t : Template} {c c' : Context}

theorem errors_eq_nil (h : Halting t c) (ha : c.aborted = false) : c.errors = [] := by
  by_contra hne
  have hstopped := h.aborted.mpr hne
  simp [ha] at hstopped

theorem silent (h : Halting t c) (hg : Grows c c') (he : c'.errors = c.errors) : Halting t c' where
  stops := hg.options ▸ h.stops
  aborted := by
    rw [hg.aborted, he, ← h.aborted]
    simp
  report := he ▸ h.report

theorem reported (h : Halting t c) (ha : c.aborted = false) (hg : Grows c c')
    (hr : OneReport t c'.errors) : Halting t c' where
  stops := hg.options ▸ h.stops
  aborted := by
    rw [hg.aborted, ha, h.errors_eq_nil ha, h.stops]
    simp [List.length_pos_iff]
  report := hr

theorem atMostOne (h : Halting t c) (ha : c.aborted = false) (hg : Grows c c') {new : List Diagnostic}
    (hnew : Lower.AtMostOne new) (he : c'.errors = c.errors ++ new) : Halting t c' := by
  refine h.reported ha hg (.few ?_)
  rw [he, h.errors_eq_nil ha, List.nil_append]
  exact hnew

end Halting

theorem Exit.Closes.nodes {exit : Exit} {inner outer : Stacks} (h : exit.Closes inner outer) :
    inner.nodes = outer.nodes := by
  cases exit with
  | branch id condition =>
    obtain ⟨b, hb, -⟩ := h
    exact hb.nodes
  | otherwise condition =>
    obtain ⟨b, hb⟩ := h
    exact hb.nodes
  | loop id head keyProperty component scope =>
    obtain ⟨b, names, hb, -⟩ := h
    exact hb.nodes
  | reference value | element cursor => exact congrArg Stacks.nodes h
  | componentSlots d pattern firstOther scope | templateSlot d condition otherwise loop head scope =>
    obtain ⟨b, names, hb, -⟩ := h
    exact hb.nodes
  | added run => cases h

theorem Unwinds.nodes {exits : List Exit} {inner outer : Stacks} (h : Unwinds exits inner outer) :
    inner.nodes = outer.nodes := by
  induction exits generalizing inner with
  | nil => exact congrArg Stacks.nodes h
  | cons exit exits ih =>
    obtain ⟨middle, hclose, hrest⟩ := h
    exact hclose.nodes.trans (ih hrest)

namespace Lower

variable {c : Context}

variable {t : Template}

/-- Whether a visit goes on with what a run that stops must have. -/
def Halts (t : Template) (visit : Lower Unit) : Prop :=
  ∀ c, Sound t c → Halting t c → Halting t (visit c).2

theorem sound_steps {visit : Lower Unit} (hbalanced : Balanced visit) {step : Lower (List Exit)}
    (hstep : step ∈ steps .none visit) (hgo : (step c).2.aborted = false) (hsound : Sound t c)
    (hnode : ∀ v, (step c).2.frame.node = some v → v.Valid t) : Sound t (step c).2 := by
  refine ⟨hnode, fun v hv => hsound.parent v ?_⟩
  have hnodes : (step c).2.outer.map Frame.node = c.outer.map Frame.node :=
    ((opens_steps hbalanced hstep).unwinds c hgo).nodes
  have hhead := congrArg List.head? hnodes
  rw [List.head?_map, List.head?_map] at hhead
  rcases houter : c.outer.head? with _ | p <;> rcases houter' : (step c).2.outer.head? with _ | p'
  · simp [houter'] at hv
  · simp [houter, houter'] at hhead
  · simp [houter, houter'] at hhead
  · simp only [houter, houter', Option.map_some, Option.some.injEq, Option.bind_some] at hhead hv ⊢
    rw [← hhead, hv]

section

variable {visit : Lower Unit} (hvisit : Halts t visit) (hbalanced : Balanced visit)

include hvisit hbalanced

theorem halting_nestedBlocks {roots : List Visited} (hroots : ∀ r ∈ roots, r.Valid t)
    (hnode : ∀ v, c.frame.node = some v → v.Valid t) (h : Halting t c) :
    Halting t (nestedBlocks visit roots c).2 := by
  induction roots generalizing c with
  | nil => exact h
  | cons r roots ih =>
    have henter : Halting t (enterNested r c) := h.silent (grows_enterNested r c) rfl
    have hsound : Sound t (enterNested r c) := .below rfl (hroots r List.mem_cons_self) rfl hnode
    have hinside := hvisit _ hsound henter
    have hexit : Halting t (exitBlock (visit (enterNested r c)).2).2 :=
      hinside.silent (uniform_exitBlock.grows _) (tacit_exitBlock _)
    have hback : Halting t (popFrame (exitBlock (visit (enterNested r c)).2).2).2 :=
      hexit.silent (uniform_popFrame.grows _) (tacit_popFrame _)
    rw [nestedBlocks_cons]
    dsimp only
    split
    · exact hback
    · next hgo =>
      refine ih (fun s hs => hroots s (List.mem_cons_of_mem _ hs)) (fun v hv => hnode v ?_) hback
      -- The walk is back at the node.
      have hgo := eq_false_of_ne_true hgo
      rw [popFrame_aborted, exitBlock_aborted] at hgo
      obtain ⟨b, hb, -⟩ := encloses_enterBlock r.loc false (c.enterChild r 0)
      have hleave := stacks_exitBlock ((hbalanced.keeps (enterNested r c) hgo).1 ▸ hb)
      rw [List.append_nil] at hleave
      rw [← hv, (stacks_popFrame hleave).2]

theorem halting_lowerChildren (isFragment : Bool) (index : Nat) {children : List Visited}
    (hchildren : ∀ s ∈ children, s.Valid t) (hnode : ∀ v, c.frame.node = some v → v.Valid t)
    (h : Halting t c) : Halting t (lowerChildren visit isFragment index children c).2 := by
  induction children generalizing index c with
  | nil => exact h
  | cons child children ih =>
    have henter : Halting t (c.enterChild child index) := h.silent (grows_enterChild child index c) rfl
    have hsound : Sound t (c.enterChild child index) :=
      .below rfl (hchildren child List.mem_cons_self) rfl hnode
    have hinside := hvisit _ hsound henter
    have htake : Tacit (takeChild isFragment) := by
      have hadd : Tacit (do
          let frame ← popFrame
          addChild isFragment frame) := tacit_popFrame.bind fun _ => tacit_modifyFrame _
      unfold takeChild
      split
      · exact (does_addToBlock.tacit rfl).bind fun _ => hadd
      · exact hadd
    have htaken : Halting t (takeChild isFragment (visit (c.enterChild child index)).2).2 :=
      hinside.silent (growing_takeChild isFragment _) (htake _)
    rw [lowerChildren_cons]
    split
    · exact hinside.silent (uniform_popFrame.grows _) (tacit_popFrame _)
    · next hgo =>
      have hkept := (hbalanced.keeps (c.enterChild child index) (eq_false_of_ne_true hgo)).1
      have hback := (stacks_takeChild isFragment hkept).2
      rw [run_bind]
      exact ih (index + 1) (fun s hs => hchildren s (List.mem_cons_of_mem _ hs))
        (fun v hv => hnode v (hback.symm.trans hv)) htaken

theorem halting_textStep (ha : c.aborted = false) (hsound : Sound t c) (h : Halting t c) :
    Halting t (textStep visit c).2 := by
  have hprepare := Fixed.compositional.calm does_prepareText rfl
  have hready := h.silent (hprepare.grows c) (does_prepareText.tacit rfl c)
  have hroots : ∀ r ∈ (prepareText c).1.roots, r.Valid t := by
    intro r hr
    obtain ⟨vs, hvs, hr⟩ := nested_of_mem_prepareText hsound hr
    exact valid_of_mem_nestedRoots hvs hr
  have hgo : (prepareText c).2.aborted = false := by
    refine eq_false_of_ne_true fun hstop => hready.aborted.mp hstop ?_
    rw [does_prepareText.tacit rfl, h.errors_eq_nil ha]
  have hnode : ∀ v, (prepareText c).2.frame.node = some v → v.Valid t := by
    rw [hprepare.node c hgo]
    exact hsound.node
  have hnested := halting_nestedBlocks hvisit hbalanced hroots hnode hready
  rw [textStep]
  exact hnested.silent ((steady_finishText _ _).grows _) ((does_finishText _ _).tacit rfl _)

theorem halting_childrenStep (hnode : ∀ v, c.frame.node = some v → v.Valid t) (h : Halting t c) :
    Halting t (childrenStep visit c).2 := by
  cases hv : c.frame.node with
  | none => rwa [childrenStep_of_isTextLike visit (by simp [hv])]
  | some v =>
    have hchildren := halting_lowerChildren hvisit hbalanced v.isFragment 0
      (fun s hs => (hnode v hv).child hs) hnode h
    obtain ⟨runs, heq, -⟩ := childrenStep_eq visit hv
    rw [heq]
    exact hchildren.silent ((steady_insertRuns runs).grows _) ((does_insertRuns runs).tacit rfl _)

theorem halting_steps {step : Lower (List Exit)} (hstep : step ∈ steps .none visit)
    (ha : c.aborted = false) (hsome : c.frame.node.isSome = true) (hsound : Sound t c) (h : Halting t c) :
    Halting t (step c).2 ∧
      ((step c).2.aborted = false → ∀ v, (step c).2.frame.node = some v → v.Valid t) := by
  obtain ⟨v, hv⟩ := Option.isSome_iff_exists.mp hsome
  have hnears : ∀ {c'}, Nears c c' → ∀ w, c'.frame.node = some w → w.Valid t := fun hn w hw =>
    hn.valid hv hw (hsound.node v hv)
  have hsame : ∀ {c' : Context}, c'.frame.node = c.frame.node → ∀ w, c'.frame.node = some w → w.Valid t :=
    fun heq w hw => hsound.node w (heq.symm.trans hw)
  simp only [steps, Extensions.none, List.append_nil, List.mem_cons, List.not_mem_nil, or_false] at hstep
  rcases hstep with rfl | rfl | rfl | rfl | rfl | rfl | rfl | rfl
  · exact ⟨h.silent (plain_onceStep.grows c) (does_onceStep.tacit rfl c), fun _ =>
      hsame (plain_onceStep.tidy c).node⟩
  · refine ⟨?_, fun _ => hnears (nears_conditionStep c)⟩
    have hgrows := does_conditionStep.grows c
    rcases errors_conditionStep c with ⟨new, hnew, heq⟩ | ⟨path, tag, children, d, hw, hd, hname, hexp, heq⟩
    · exact h.atMostOne ha hgrows hnew heq
    · refine h.reported ha hgrows ?_
      rw [heq, h.errors_eq_nil ha, List.nil_append]
      exact .condition (hsound.node _ hw) hd hname hexp
  · refine ⟨?_, fun _ => hnears (nears_loopStep c)⟩
    obtain ⟨new, hnew, heq⟩ := reports_loopStep c
    exact h.atMostOne ha (does_loopStep.grows c) hnew heq
  · exact ⟨h.silent (steady_referenceStep.grows c) (does_referenceStep.tacit rfl c), fun _ =>
      hsame (steady_referenceStep.still c).node⟩
  · exact ⟨h.silent (does_elementStep.grows c) rfl, fun _ => hsame rfl⟩
  · exact ⟨halting_textStep hvisit hbalanced ha hsound h, fun hgo =>
      hsame ((fixed_textStep hbalanced).node c hgo)⟩
  · refine ⟨?_, fun _ => hsame (hushing_slotStep c).node⟩
    obtain ⟨new, hnew, heq⟩ := reports_slotStep c
    exact h.atMostOne ha (does_slotStep.grows c) hnew heq
  · exact ⟨halting_childrenStep hvisit hbalanced hsound.node h, fun hgo =>
      hsame ((fixed_childrenStep hbalanced).node c hgo)⟩

theorem halting_runSteps {todo : List (Lower (List Exit))}
    (htodo : ∀ step ∈ todo, step ∈ steps .none visit) (exits : List Exit) (ha : c.aborted = false)
    (hsome : c.frame.node.isSome = true) (hsound : Sound t c) (h : Halting t c) :
    Halting t (runSteps todo exits c).2 ∧ ((runSteps todo exits c).1.isSome = true →
      ∀ v, (runSteps todo exits c).2.frame.node = some v → v.Valid t) := by
  induction todo generalizing exits c with
  | nil => exact ⟨h, fun _ => hsound.node⟩
  | cons step todo ih =>
    have hstep := htodo step List.mem_cons_self
    obtain ⟨hnext, hnode⟩ := halting_steps hvisit hbalanced hstep ha hsome hsound h
    rw [runSteps_cons]
    split
    · refine ⟨hnext, fun hleft => ?_⟩
      cases hleft
    · next hgo =>
      simp only [Bool.or_eq_true, not_or, Bool.not_eq_true, Option.isNone_eq_false_iff] at hgo
      exact ih (fun s hs => htodo s (List.mem_cons_of_mem _ hs)) _ hgo.1 hgo.2
        (sound_steps hbalanced hstep hgo.1 hsound (hnode hgo.1)) hnext

end

theorem halting_runExits {exits : List Exit} (hown : ∀ exit ∈ exits, exit.isOwn = true)
    (hnode : ∀ v, c.frame.node = some v → v.Valid t) (h : Halting t c) :
    Halting t (runExits .none exits c).2 := by
  induction exits generalizing c with
  | nil => exact h
  | cons exit exits ih =>
    have hexit := hown exit List.mem_cons_self
    have hgrows := (does_runExit hexit).grows c
    have hrest : ∀ e ∈ exits, e.isOwn = true := fun e he => hown e (List.mem_cons_of_mem _ he)
    rw [runExits_cons]
    split
    · exact h
    · next hgo =>
      have ha := eq_false_of_ne_true hgo
      cases hother : exit.isElement with
      | false =>
        obtain ⟨new, hnew, heq⟩ := reports_runExit hexit hother c
        refine ih hrest (fun v hv => hnode v ?_) (h.atMostOne ha hgrows hnew heq)
        rw [← hv, (hushing_runExit hexit hother c).node]
      | true =>
        obtain ⟨cursor, rfl⟩ : ∃ cursor, exit = .element cursor := by
          cases exit with
          | element cursor => exact ⟨cursor, rfl⟩
          | _ => cases hother
        by_cases hv : ∃ path tag children, c.frame.node = some (.node path (.element tag children)) ∧
            tag.type ≠ .template
        · obtain ⟨path, tag, children, hv, ht⟩ := hv
          obtain ⟨groups, hgroups, heq⟩ := errors_exitElement hv ht cursor
          have hkept : (exitElement .none cursor c).2.frame.node = c.frame.node :=
            (exitElement_of_element hv ht cursor).node
          refine ih hrest (fun v hv => hnode v (hkept.symm.trans hv)) (h.reported ha hgrows ?_)
          rw [runExit, heq, h.errors_eq_nil ha, List.nil_append]
          exact .items (hnode _ hv) ht hgroups
        · have hother : exitElement .none cursor c = ((), c) := by
            refine exitElement_of_other (fun path tag children hv' => ?_) cursor
            by_contra ht
            exact hv ⟨path, tag, children, hv', ht⟩
          rw [runExit, hother]
          exact ih hrest hnode h

theorem halts_lowerNode (t : Template) (depth : Nat) : Halts t (lowerNode .none depth) := by
  induction depth with
  | zero => exact fun c _ h => h
  | succ depth ih =>
    intro c hsound h
    have hbalanced := balanced_lowerNode depth
    cases ha : c.aborted with
    | true =>
      -- After a stop only the first step is taken, which reports nothing.
      have hstop : (onceStep c).2.aborted = true := (does_onceStep.grows c).aborted.mpr (Or.inl ha)
      have hrun : runSteps (steps .none (lowerNode .none depth)) [] c = (none, (onceStep c).2) := by
        rw [steps, List.cons_append, runSteps_cons, hstop, Bool.true_or, if_pos rfl]
      rw [lowerNode_succ, hrun]
      exact h.silent (does_onceStep.grows c) (does_onceStep.tacit rfl c)
    | false =>
      cases hnode : c.frame.node with
      | none => rwa [lowerNode_of_none hnode]
      | some v =>
        obtain ⟨hsteps, hvalid⟩ := halting_runSteps ih hbalanced (fun _ hs => hs) [] ha
          (by rw [hnode]; rfl) hsound h
        rw [lowerNode_succ]
        cases hrun : (runSteps (steps .none (lowerNode .none depth)) [] c).1 with
        | none => exact hsteps
        | some left =>
          have hown := own_runSteps (fun step hstep c => own_steps hstep c) (by simp) hrun
          exact halting_runExits hown (hvalid (by rw [hrun]; rfl)) hsteps

end Lower

/-- All mistakes of a run that stops at a mistake are reported by one step at one element: at most one, or
those about the condition of a branch, or those about the items of a tag, each with at most two. -/
theorem lower_stops_at_one_step (o : LoweringOptions) (t : Template) :
    OneReport t (t.lower { o with collectErrors := false } .none).errors := by
  have hstart : Halting t (Context.ofTemplate { o with collectErrors := false } t) :=
    ⟨rfl, by simp [Context.ofTemplate], .few (Nat.zero_le 1)⟩
  exact (Lower.halts_lowerNode t t.depth _ (sound_ofTemplate _ t) hstart).report

/-- An element whose text is missing and has a child beside it: a run that stops at a mistake reports
two. -/
theorem two_mistakes_before_stop :
    let text := TagItem.attribute ⟨"v-text", none, .stub, none, .stub⟩
    let t : Template := ⟨"", [.element ⟨"div", .element, [text], false, .stub⟩ [.text "a" .stub]], .stub⟩
    (t.lower ⟨false, fun _ => false⟩ .none).errors =
      [⟨.textNoExpression, some .stub⟩, ⟨.textWithChildren, some .stub⟩] := by
  decide +kernel

end JsxTemplate
