import JsxTemplate.Proofs.Lowering.Plain

/-!
# The steps in both modes

All steps but those for texts and for children, and all that is left to do when the walk leaves a node,
are uniform. The two others visit further nodes, and look in between whether the walk has stopped. So the
state grows along the whole walk.
-/

namespace JsxTemplate

/-- What may be left to do at a node. -/
inductive Exit.Kind where
  | branch | loop | reference | element | slots | added
  deriving DecidableEq

/-- What something that is left to do concerns. -/
def Exit.kind : Exit → Exit.Kind
  | .branch _ _ | .otherwise _ => .branch
  | .loop _ _ _ _ _ => .loop
  | .reference _ => .reference
  | .element _ => .element
  | .componentSlots _ _ _ _ | .templateSlot _ _ _ _ _ _ => .slots
  | .added _ => .added

namespace Lower

variable {step : Lower (List Exit)}

/-! ## What actions give -/

/-- Whether all that an action gives has a property. -/
def Gives {α : Type} (P : α → Prop) (x : Lower α) : Prop := ∀ c, P (x c).1

namespace Gives

variable {α β : Type} {P : β → Prop}

theorem pure {b : β} (h : P b) : Gives P (Pure.pure b) := fun _ => h

theorem bind {x : Lower α} {f : α → Lower β} (hf : ∀ a, Gives P (f a)) : Gives P (x >>= f) :=
  fun _ => hf _ _

end Gives

/-- Whether a step leaves at most one thing to do, which concerns what is given. -/
def Leaves (kind : Exit.Kind) (step : Lower (List Exit)) : Prop :=
  Gives (fun exits => exits.length ≤ 1 ∧ ∀ exit ∈ exits, exit.kind = kind) step

namespace Leaves

variable {kind : Exit.Kind}

theorem nothing : Leaves kind (Pure.pure []) := .pure ⟨Nat.zero_le 1, by simp⟩

theorem single {exit : Exit} (h : exit.kind = kind) : Leaves kind (Pure.pure [exit]) :=
  .pure ⟨Nat.le_refl 1, by simpa using h⟩

theorem bind {α : Type} {x : Lower α} {f : α → Lower (List Exit)} (hf : ∀ a, Leaves kind (f a)) :
    Leaves kind (x >>= f) :=
  Gives.bind hf

theorem stepwise {small : List Deed} : Stepwise small (Leaves kind) := ⟨nothing, fun _ _ => bind⟩

theorem own (h : Leaves kind step) (hkind : kind ≠ .added) (c : Context) :
    ∀ exit ∈ (step c).1, exit.isOwn = true := by
  intro exit he
  have hexit := (h c).2 exit he
  cases exit with
  | added run => exact absurd hexit.symm hkind
  | _ => rfl

end Leaves

theorem onceStep_exits (c : Context) : (onceStep c).1 = [] := by
  have hgives : Gives (· = []) onceStep := by
    refine .bind fun v => ?_
    split
    · split
      · exact .bind fun _ => .pure rfl
      · exact .pure rfl
    · exact .pure rfl
  exact hgives c

theorem leaves_conditionStep : Leaves .branch conditionStep :=
  Leaves.stepwise.conditionStep (fun _ _ _ _ => .bind fun _ => .bind fun _ => .bind fun _ => .bind fun _ => .single rfl)
    fun _ _ _ _ => .bind fun _ => .single rfl

theorem leaves_loopStep : Leaves .loop loopStep :=
  Leaves.stepwise.loopStep fun _ _ _ _ => .bind fun _ => .bind fun _ => .bind fun _ => .bind fun _ => .bind fun _ =>
    .bind fun _ => .single rfl

theorem leaves_referenceStep : Leaves .reference referenceStep := by
  refine .bind fun v => ?_
  split
  · split
    · exact .nothing
    · exact .bind fun _ => .single rfl
  · exact .nothing

theorem leaves_slotStep : Leaves .slots slotStep := by
  refine Leaves.stepwise.slotStep (fun tag children d => .bind fun _ => .bind fun _ => ?_) fun tag d =>
    .bind fun _ => .bind fun _ => .bind fun _ => .bind fun _ => .single rfl
  split
  · exact .bind fun _ => .single rfl
  · exact .single rfl

/-! ## Texts and children -/

/-- Whether a property of actions holds of actions that leave the walk where it is and mark at most texts,
and passes from actions to what is composed of them. -/
structure Compositional (P : {α : Type} → Lower α → Prop) : Prop where
  calm : ∀ {α : Type} {deeds : List Deed} {x : Lower α}, Does deeds x → deeds.all Deed.isCalm = true → P x
  bind : ∀ {α β : Type} {x : Lower α} {f : α → Lower β}, P x → (∀ a, P (f a)) → P (x >>= f)

namespace Compositional

variable {P : {α : Type} → Lower α → Prop} (h : Compositional P) {visit : Lower Unit}

include h

theorem pure {α : Type} (a : α) : P (Pure.pure a : Lower α) := h.calm (.pure a : Does [] (Pure.pure a)) rfl

theorem textStep (hnested : ∀ roots, P (nestedBlocks visit roots)) : P (Lower.textStep visit) := by
  rw [Lower.textStep]
  refine h.bind (h.bind (h.calm does_prepareText rfl) fun work => ?_) fun _ => h.pure _
  exact h.bind (hnested _) fun _ => h.calm (does_finishText _ _) rfl

theorem childrenStep
    (hchildren : ∀ isFragment index children, P (lowerChildren visit isFragment index children)) :
    P (Lower.childrenStep visit) := by
  refine h.bind (h.calm does_node rfl) fun v => ?_
  split
  · exact h.pure _
  · split
    · exact h.pure _
    · refine h.bind (hchildren _ _ _) fun goesOn => ?_
      split
      · have hinsert : Does [.number, .children, .insertion] (do
            insertRuns (insertionRuns 0 [] false (← get).frame.plan.children)
            return ([] : List Exit)) :=
          .read (fun _ => rfl) fun c => (does_insertRuns _).bind rfl fun _ => .pure _
        exact h.calm hinsert rfl
      · exact h.pure _

end Compositional

/-! ## Runs -/

theorem own_steps {visit : Lower Unit} (hstep : step ∈ steps .none visit) (c : Context) :
    ∀ exit ∈ (step c).1, exit.isOwn = true := by
  simp only [steps, Extensions.none, List.append_nil, List.mem_cons, List.not_mem_nil, or_false] at hstep
  rcases hstep with rfl | rfl | rfl | rfl | rfl | rfl | rfl | rfl
  · simp [onceStep_exits]
  · exact leaves_conditionStep.own (by decide) c
  · exact leaves_loopStep.own (by decide) c
  · exact leaves_referenceStep.own (by decide) c
  · simp [elementStep, Exit.isOwn]
  · simp [textStep_exits]
  · exact leaves_slotStep.own (by decide) c
  · simp [childrenStep_exits]

theorem own_runSteps {steps : List (Lower (List Exit))}
    (hsteps : ∀ step ∈ steps, ∀ c, ∀ exit ∈ (step c).1, exit.isOwn = true)
    {exits left : List Exit} (hexits : ∀ exit ∈ exits, exit.isOwn = true) {c : Context}
    (hrun : (runSteps steps exits c).1 = some left) : ∀ exit ∈ left, exit.isOwn = true := by
  induction steps generalizing exits c with
  | nil => exact Option.some.inj hrun ▸ hexits
  | cons step steps ih =>
    rw [runSteps_cons] at hrun
    split at hrun
    · cases hrun
    · refine ih (fun s hs => hsteps s (List.mem_cons_of_mem _ hs)) (fun exit he => ?_) hrun
      rcases List.mem_append.mp he with he | he
      · exact hsteps step List.mem_cons_self c exit (List.mem_reverse.mp he)
      · exact hexits exit he

theorem runExits_of_aborted {c : Context} (h : c.aborted = true) (exits : List Exit) :
    (runExits .none exits c).2 = c := by
  cases exits with
  | nil => rfl
  | cons exit exits => rw [runExits_cons, if_pos h]

section

variable {R : Context → Context → Prop} (hrefl : ∀ c, R c c)
  (htrans : ∀ {c c' c''}, R c c' → R c' c'' → R c c'')

include hrefl htrans

theorem related_runSteps {steps : List (Lower (List Exit))}
    (hsteps : ∀ step ∈ steps, ∀ c, R c (step c).2) (exits : List Exit) (c : Context) :
    R c (runSteps steps exits c).2 := by
  induction steps generalizing exits c with
  | nil => exact hrefl c
  | cons step steps ih =>
    have hstep := hsteps step List.mem_cons_self c
    rw [runSteps_cons]
    split
    · exact hstep
    · exact htrans hstep (ih (fun s hs => hsteps s (List.mem_cons_of_mem _ hs)) _ _)

theorem related_runExits {exits : List Exit}
    (hexits : ∀ exit ∈ exits, ∀ c, R c (runExit .none exit c).2) (c : Context) :
    R c (runExits .none exits c).2 := by
  induction exits generalizing c with
  | nil => exact hrefl c
  | cons exit exits ih =>
    rw [runExits_cons]
    split
    · exact hrefl c
    · exact htrans (hexits exit List.mem_cons_self c)
        (ih (fun e he => hexits e (List.mem_cons_of_mem _ he)) _)

/-- What holds between the states before and after each step, and before and after all that is left to do,
holds between the states before and after the walk over a node. -/
theorem related_lowerNode
    (hsteps : ∀ visit : Lower Unit, (∀ c, R c (visit c).2) → ∀ step ∈ steps .none visit,
      ∀ c, R c (step c).2)
    (hexit : ∀ exit : Exit, exit.isOwn = true → ∀ c, R c (runExit .none exit c).2) (depth : Nat)
    (c : Context) : R c (lowerNode .none depth c).2 := by
  induction depth generalizing c with
  | zero => exact hrefl c
  | succ depth ih =>
    have hrunSteps := related_runSteps hrefl htrans (hsteps _ ih) [] c
    rw [lowerNode_succ]
    cases hrun : (runSteps (steps .none (lowerNode .none depth)) [] c).1 with
    | none => exact hrunSteps
    | some left =>
      have hown := own_runSteps (fun step hstep c => own_steps hstep c) (by simp) hrun
      exact htrans hrunSteps (related_runExits hrefl htrans (fun exit he => hexit exit (hown exit he)) _)

end

/-! ## The whole walk -/

/-- Whether the state grows by an action. -/
def Growing {α : Type} (x : Lower α) : Prop := ∀ c, Grows c (x c).2

namespace Growing

variable {α β : Type}

theorem pure (a : α) : Growing (Pure.pure a) := .refl

theorem bind {x : Lower α} {f : α → Lower β} (hx : Growing x) (hf : ∀ a, Growing (f a)) :
    Growing (x >>= f) := fun c => (hx c).trans (hf _ _)

end Growing

theorem Growing.compositional : Compositional Growing where
  calm := fun h _ => h.grows
  bind := .bind

theorem growing_isAborted : Growing isAborted := .refl

section

variable {visit : Lower Unit} (hvisit : Growing visit)

include hvisit

theorem growing_nestedBlocks (roots : List Visited) : Growing (nestedBlocks visit roots) := by
  induction roots with
  | nil => exact .pure _
  | cons r roots ih =>
    refine .bind (uniform_pushFrame r 0).grows fun _ => .bind (uniform_enterBlock _ _).grows fun _ =>
      hvisit.bind fun _ => .bind uniform_exitBlock.grows fun _ => .bind uniform_popFrame.grows fun _ =>
        growing_isAborted.bind fun aborted => ?_
    split
    · exact .pure _
    · exact ih.bind fun _ => .pure _

theorem growing_lowerChildren (isFragment : Bool) (index : Nat) (children : List Visited) :
    Growing (lowerChildren visit isFragment index children) := by
  induction children generalizing index with
  | nil => exact .pure _
  | cons child children ih =>
    have hrest : Growing (do
        let frame ← popFrame
        addChild isFragment frame
        lowerChildren visit isFragment (index + 1) children) :=
      .bind uniform_popFrame.grows fun frame => .bind (uniform_modifyFrame _).grows fun _ => ih _
    refine .bind (uniform_pushFrame child index).grows fun _ => hvisit.bind fun _ =>
      growing_isAborted.bind fun aborted => ?_
    split
    · exact .bind uniform_popFrame.grows fun _ => .pure _
    · split
      · exact .bind steady_addToBlock.grows fun _ => hrest
      · exact hrest

end

theorem growing_steps {visit : Lower Unit} (hvisit : Growing visit) (hstep : step ∈ steps .none visit) :
    Growing step := by
  simp only [steps, Extensions.none, List.append_nil, List.mem_cons, List.not_mem_nil, or_false] at hstep
  rcases hstep with rfl | rfl | rfl | rfl | rfl | rfl | rfl | rfl
  · exact does_onceStep.grows
  · exact does_conditionStep.grows
  · exact does_loopStep.grows
  · exact does_referenceStep.grows
  · exact does_elementStep.grows
  · exact Growing.compositional.textStep (growing_nestedBlocks hvisit)
  · exact does_slotStep.grows
  · exact Growing.compositional.childrenStep (growing_lowerChildren hvisit)

theorem growing_runExits {exits : List Exit} (h : ∀ exit ∈ exits, exit.isOwn = true) :
    Growing (runExits .none exits) :=
  related_runExits .refl .trans fun exit he => (does_runExit (h exit he)).grows

theorem growing_lowerNode (depth : Nat) : Growing (lowerNode .none depth) :=
  related_lowerNode .refl .trans (fun _ hvisit _ hstep => growing_steps hvisit hstep)
    (fun _ hown => (does_runExit hown).grows) depth

end Lower

end JsxTemplate
