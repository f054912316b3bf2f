import JsxTemplate.Proofs.Lowering.Actions

/-!
# What every action keeps

Whatever the walk does, it only adds mistakes, numbers, marks and events (`Grows`). And except where it
looks whether it has stopped, it does the same whether or not mistakes are collected (`Uniform`): the two
ways to go on after a mistake can only part at such a look.
-/

namespace JsxTemplate

/-- How a state is related to a later one. -/
structure Grows (c c' : Context) : Prop where
  root : c'.root = c.root
  options : c'.options = c.options
  errors : c.errors <+: c'.errors
  aborted : c'.aborted = true ↔
    c.aborted = true ∨ (c.options.collectErrors = false ∧ c.errors.length < c'.errors.length)
  fault : c'.fault = none → c.fault = none
  nextId : c.nextId ≤ c'.nextId
  seen : ∀ m ∈ c.seen, m ∈ c'.seen
  log : c.log <:+ c'.log

namespace Grows

variable {c c' c'' : Context}

theorem quietly (root : c'.root = c.root) (options : c'.options = c.options)
    (errors : c'.errors = c.errors) (aborted : c'.aborted = c.aborted)
    (fault : c'.fault = none → c.fault = none) (nextId : c.nextId ≤ c'.nextId)
    (seen : ∀ m ∈ c.seen, m ∈ c'.seen) (log : c.log <:+ c'.log) : Grows c c' where
  root := root
  options := options
  errors := errors ▸ List.prefix_refl _
  aborted := by simp [errors, aborted]
  fault := fault
  nextId := nextId
  seen := seen
  log := log

theorem of_eq (h : (c'.root, c'.options, c'.errors, c'.aborted, c'.fault, c'.nextId, c'.seen, c'.log) =
    (c.root, c.options, c.errors, c.aborted, c.fault, c.nextId, c.seen, c.log)) : Grows c c' := by
  simp only [Prod.mk.injEq] at h
  obtain ⟨root, options, errors, aborted, fault, nextId, seen, log⟩ := h
  exact .quietly root options errors aborted fault.symm.trans (Nat.le_of_eq nextId.symm)
    (fun _ hm => seen ▸ hm) (log ▸ List.suffix_refl _)

theorem refl (c : Context) : Grows c c := .of_eq rfl

theorem trans (h : Grows c c') (h' : Grows c' c'') : Grows c c'' where
  root := h'.root.trans h.root
  options := h'.options.trans h.options
  errors := h.errors.trans h'.errors
  aborted := by
    have hlen := h.errors.length_le
    have hlen' := h'.errors.length_le
    rw [h'.aborted, h.aborted, h.options]
    constructor
    · rintro ((ha | ⟨hc, hlt⟩) | ⟨hc, hlt⟩)
      · exact Or.inl ha
      · exact Or.inr ⟨hc, by omega⟩
      · exact Or.inr ⟨hc, by omega⟩
    · rintro (ha | ⟨hc, hlt⟩)
      · exact Or.inl (Or.inl ha)
      · by_cases hfirst : c.errors.length < c'.errors.length
        · exact Or.inl (Or.inr ⟨hc, hfirst⟩)
        · exact Or.inr ⟨hc, by omega⟩
  fault := h.fault ∘ h'.fault
  nextId := Nat.le_trans h.nextId h'.nextId
  seen := fun m hm => h'.seen m (h.seen m hm)
  log := h.log.trans h'.log

theorem goesOn (h : Grows c c') (ha : c'.aborted = false) : c.aborted = false := by
  by_contra hc
  have := h.aborted.mpr (Or.inl (eq_true_of_ne_false hc))
  simp [ha] at this

theorem collects (h : Grows c c') (hc : c.options.collectErrors = true) (ha : c.aborted = false) :
    c'.aborted = false := by
  by_contra hn
  rcases h.aborted.mp (eq_true_of_ne_false hn) with ha' | ⟨hc', -⟩
  · simp [ha] at ha'
  · simp [hc] at hc'

end Grows

/-- The state, apart from whether mistakes are collected and whether the walk has stopped. -/
def Context.modeless (c : Context) : Context :=
  { c with options := { c.options with collectErrors := true }, aborted := false }

namespace Lower

/-- Whether an action does the same whether or not mistakes are collected. -/
structure Uniform {α : Type} (x : Lower α) : Prop where
  grows : ∀ c, Grows c (x c).2
  result : ∀ c, (x c).1 = (x c.modeless).1
  state : ∀ c, (x c).2.modeless = (x c.modeless).2.modeless

namespace Uniform

variable {α β : Type}

theorem pure (a : α) : Uniform (Pure.pure a) := ⟨.refl, fun _ => rfl, fun _ => rfl⟩

theorem bind {x : Lower α} {f : α → Lower β} (hx : Uniform x) (hf : ∀ a, Uniform (f a)) :
    Uniform (x >>= f) where
  grows := fun c => (hx.grows c).trans ((hf _).grows _)
  result := by
    intro c
    rw [run_bind, run_bind, ← hx.result c, (hf _).result (x c).2, (hf _).result (x c.modeless).2,
      hx.state c]
  state := by
    intro c
    rw [run_bind, run_bind, ← hx.result c, (hf _).state (x c).2, (hf _).state (x c.modeless).2,
      hx.state c]

theorem read {f : Context → Lower β} (hf : ∀ c, Uniform (f c)) (h : ∀ c, f c.modeless = f c) :
    Uniform (get >>= f) where
  grows := fun c => (hf c).grows c
  result := by
    intro c
    rw [run_bind, run_bind, run_get, run_get, h c]
    exact (hf c).result c
  state := by
    intro c
    rw [run_bind, run_bind, run_get, run_get, h c]
    exact (hf c).state c

theorem ofRead {x : Lower α} (hx : ∀ c, (x c).2 = c) (h : ∀ c, (x c.modeless).1 = (x c).1) :
    Uniform x where
  grows := fun c => (hx c).symm ▸ Grows.refl c
  result := fun c => (h c).symm
  state := fun c => by rw [hx, hx]; rfl

theorem modifyIf {p : Context → Bool} {f g : Context → Context} (hp : ∀ c, p c.modeless = p c)
    (hf : Uniform (modify f)) (hg : Uniform (modify g)) : Uniform (modify fun c => if p c then f c else g c) := by
  have hrun : (modify fun c => if p c then f c else g c : Lower Unit) =
      get >>= fun c => if p c then modify f else modify g := by
    funext c
    rw [run_bind, run_get, run_ite]
    exact apply_ite (Prod.mk ()) _ _ _
  rw [hrun]
  refine .read (fun c => ?_) fun c => by rw [hp]
  split
  · exact hf
  · exact hg

end Uniform

/-! ## Basic actions -/

theorem uniform_inOnce : Uniform inOnce := .ofRead (fun _ => rfl) fun _ => rfl

theorem uniform_isSeen (path : Path) (purpose : String) : Uniform (isSeen path purpose) :=
  .ofRead (fun _ => rfl) fun _ => rfl

theorem uniform_note (event : Event) : Uniform (note event) where
  grows := fun _ => .quietly rfl rfl rfl rfl id (Nat.le_refl _) (fun _ hm => hm)
    (List.suffix_cons _ _)
  result := fun _ => rfl
  state := fun _ => rfl

theorem uniform_modifyFrame (f : Frame → Frame) : Uniform (modifyFrame f) where
  grows := fun _ => .of_eq rfl
  result := fun _ => rfl
  state := fun _ => rfl

theorem uniform_modifyPlan (f : NodePlan → NodePlan) : Uniform (modifyPlan f) :=
  uniform_modifyFrame _

theorem uniform_replaceNode (v : Visited) : Uniform (replaceNode v) := uniform_modifyFrame _

theorem uniform_addSlots (slots : List SlotGroup) : Uniform (addSlots slots) := uniform_modifyFrame _

theorem uniform_takeSlots : Uniform takeSlots :=
  .read (fun _ => (uniform_modifyFrame _).bind fun _ => .pure _) fun _ => rfl

theorem uniform_setOnce : Uniform setOnce := uniform_modifyFrame _

theorem uniform_modifyParent (f : Frame → Frame) : Uniform (modifyParent f) where
  grows := by
    intro c
    rw [modifyParent_run]
    exact .of_eq rfl
  result := fun _ => rfl
  state := by
    intro c
    rw [modifyParent_run, modifyParent_run]
    rfl

theorem uniform_pushFrame (v : Visited) (index : Nat) : Uniform (pushFrame v index) where
  grows := fun _ => .of_eq rfl
  result := fun _ => rfl
  state := fun _ => rfl

theorem uniform_popFrame : Uniform popFrame where
  grows := by
    intro c
    rw [popFrame_run]
    exact .of_eq rfl
  result := by
    intro c
    rw [popFrame_run, popFrame_run]
    rfl
  state := by
    intro c
    rw [popFrame_run, popFrame_run]
    rfl

theorem uniform_reference : Uniform reference := by
  have hfresh : Uniform freshId :=
    ⟨fun _ => .quietly rfl rfl rfl rfl id (Nat.le_succ _) (fun _ hm => hm) (List.suffix_refl _),
      fun _ => rfl, fun _ => rfl⟩
  refine .read (fun c => ?_) fun _ => rfl
  split
  · exact .pure _
  · exact hfresh.bind fun _ => (uniform_modifyPlan _).bind fun _ => .pure _

theorem uniform_pushTemplate (content : String) : Uniform (pushTemplate content) where
  grows := by
    intro c
    obtain ⟨pieces, hp, -, -⟩ := pushTemplate_spec content c
    rw [hp]
    exact .of_eq rfl
  result := by
    intro c
    cases h : c.templates.idxOf? content <;> simp [pushTemplate, h, Context.modeless]
  state := by
    intro c
    cases h : c.templates.idxOf? content <;> simp [pushTemplate, h, Context.modeless]

theorem uniform_registerTemplate : Uniform registerTemplate := by
  refine .read (fun c => ?_) fun _ => rfl
  split
  · exact .pure _
  · exact (uniform_pushTemplate _).bind fun _ => (uniform_modifyPlan _).bind fun _ => .pure _

theorem uniform_enterBlock (loc : Location) (isLoop : Bool) : Uniform (enterBlock loc isLoop) where
  grows := fun _ => .quietly rfl rfl rfl rfl id (Nat.le_refl _) (fun _ hm => hm)
    (List.suffix_cons _ _)
  result := fun _ => rfl
  state := fun _ => rfl

theorem uniform_exitBlock : Uniform exitBlock := by
  refine uniform_registerTemplate.bind fun _ => (uniform_note _).bind fun _ => ?_
  refine ⟨fun c => ?_, fun c => ?_, fun c => ?_⟩
  · cases h : c.saved with
    | nil =>
      simp only [run_bind, run_get, h, run_pure]
      exact .refl c
    | cons s saved =>
      simp only [run_bind, run_get, h, run_set, run_pure]
      exact .of_eq rfl
  · cases h : c.saved <;> simp [h, Context.modeless]
  · cases h : c.saved <;> simp [h, Context.modeless]

theorem uniform_discardTemplates : Uniform discardTemplates where
  grows := fun _ => .of_eq rfl
  result := fun _ => rfl
  state := fun _ => rfl

theorem uniform_registerOperation (op : Operation) (index : Option Nat) :
    Uniform (registerOperation op index) where
  grows := fun _ => .of_eq rfl
  result := fun _ => rfl
  state := fun _ => rfl

theorem uniform_addOperation (op : Operation) : Uniform (addOperation op) :=
  (uniform_registerOperation op none).bind fun _ => .pure _

theorem uniform_registerEffect (expressions : List Expression) (op : Operation) (cursor : Cursor) :
    Uniform (registerEffect expressions op cursor) := by
  refine uniform_inOnce.bind fun once => ?_
  split
  · exact (uniform_registerOperation _ _).bind fun _ => .pure _
  · exact ⟨fun _ => .of_eq rfl, fun _ => rfl, fun _ => rfl⟩

theorem uniform_markSeen (path : Path) (purpose : String) : Uniform (markSeen path purpose) := by
  have hmark : Uniform (modify fun c => { c with seen := (path, purpose) :: c.seen }) :=
    ⟨fun _ => .quietly rfl rfl rfl rfl id (Nat.le_refl _) (fun _ hm => List.mem_cons_of_mem _ hm)
      (List.suffix_refl _), fun _ => rfl, fun _ => rfl⟩
  refine (uniform_isSeen path purpose).bind fun seen => ?_
  split
  · exact .pure _
  · exact hmark.bind fun _ => .pure _

theorem uniform_pushScope (names : List String) : Uniform (pushScope names) where
  grows := fun _ => .of_eq rfl
  result := fun _ => rfl
  state := fun _ => rfl

theorem uniform_popScope (count : Nat) : Uniform (popScope count) where
  grows := fun _ => .of_eq rfl
  result := fun _ => rfl
  state := fun _ => rfl

theorem uniform_addComponent (name : String) : Uniform (addComponent name) :=
  .modifyIf (fun _ => rfl) (.ofRead (fun _ => rfl) fun _ => rfl)
    ⟨fun _ => .of_eq rfl, fun _ => rfl, fun _ => rfl⟩

theorem uniform_addDirective (name : String) : Uniform (addDirective name) :=
  .modifyIf (fun _ => rfl) (.ofRead (fun _ => rfl) fun _ => rfl)
    ⟨fun _ => .of_eq rfl, fun _ => rfl, fun _ => rfl⟩

theorem uniform_report (code : ErrorCode) (loc : Option Location) : Uniform (report code loc) where
  grows := fun c =>
    { root := rfl
      options := rfl
      errors := List.prefix_append _ _
      aborted := by simp [report]
      fault := id
      nextId := Nat.le_refl _
      seen := fun _ hm => hm
      log := List.suffix_refl _ }
  result := fun _ => rfl
  state := fun _ => rfl

theorem uniform_noteReference : Uniform (modify fun c => { c with hasReference := true }) :=
  ⟨fun _ => .of_eq rfl, fun _ => rfl, fun _ => rfl⟩

theorem uniform_fail (fault : Text.CutFault) : Uniform (modify fun c => { c with fault := some fault }) :=
  ⟨fun _ => .quietly rfl rfl rfl rfl (fun h => by simp at h) (Nat.le_refl _) (fun _ hm => hm)
    (List.suffix_refl _), fun _ => rfl, fun _ => rfl⟩

theorem uniform_putPlaceholder (index : Nat) : Uniform (putPlaceholder index) where
  grows := fun _ => .quietly rfl rfl rfl rfl id (Nat.le_succ _) (fun _ hm => hm) (List.suffix_refl _)
  result := fun _ => rfl
  state := fun _ => rfl

theorem uniform_noteRootTemplate (template : Option Nat) : Uniform (noteRootTemplate template) :=
  .modifyIf (fun _ => rfl) ⟨fun _ => .of_eq rfl, fun _ => rfl, fun _ => rfl⟩
    (.ofRead (fun _ => rfl) fun _ => rfl)

theorem uniform_giveBack : Uniform giveBack :=
  .modifyIf (fun _ => rfl) ⟨fun _ => .of_eq rfl, fun _ => rfl, fun _ => rfl⟩
    (.ofRead (fun _ => rfl) fun _ => rfl)

end Lower

end JsxTemplate
