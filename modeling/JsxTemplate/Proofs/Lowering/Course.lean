import JsxTemplate.Proofs.Lowering.Cuts

/-!
# The course of a visit

If mistakes are collected, every visit takes the same course (`course_lowerNode`). So a relation between
states that holds for each part of it holds for a whole visit (`Tame.lowerNode`).
-/

namespace JsxTemplate

/-! ## Visits below a node -/

/-- Whether the walk is back at a node, with all as it was left there. -/
structure Resumed (c c' : Context) : Prop where
  grows : Grows c c'
  node : c'.frame.node = c.frame.node
  kept : c'.stacks = c.stacks

theorem Resumed.trans {c c' c'' : Context} (h : Resumed c c') (h' : Resumed c' c'') : Resumed c c'' :=
  ⟨h.grows.trans h'.grows, h'.node.trans h.node, h'.kept.trans h.kept⟩

namespace Lower

def afterNested (visit : Lower Unit) (r : Visited) (c : Context) : Context :=
  (popFrame (exitBlock (visit (enterNested r c)).2).2).2

def afterChild (visit : Lower Unit) (isFragment : Bool) (child : Visited) (index : Nat) (c : Context) :
    Context :=
  (takeChild isFragment (visit (c.enterChild child index)).2).2

theorem grows_enterNested (r : Visited) (c : Context) : Grows c (enterNested r c) :=
  ((uniform_pushFrame r 0).grows c).trans ((uniform_enterBlock r.loc false).grows _)

theorem grows_enterChild (child : Visited) (index : Nat) (c : Context) :
    Grows c (c.enterChild child index) :=
  (uniform_pushFrame child index).grows c

theorem growing_takeChild (isFragment : Bool) : Growing (takeChild isFragment) := by
  have hpop : Growing (popFrame >>= addChild isFragment) :=
    .bind uniform_popFrame.grows fun frame => (uniform_modifyFrame _).grows
  unfold takeChild
  split
  · exact .bind steady_addToBlock.grows fun _ => hpop
  · exact hpop

section

variable {visit : Lower Unit} (hvisit : Balanced visit) {c : Context} (hc : Collecting c)

include hvisit hc

theorem resumed_afterNested (r : Visited) : Resumed c (afterNested visit r c) := by
  have hgrows := (grows_enterNested r c).trans (hvisit.grows (enterNested r c))
  obtain ⟨b, hb, -⟩ := encloses_enterBlock r.loc false (c.enterChild r 0)
  have hinner := (hvisit.keeps (enterNested r c) (hgrows.collecting hc).goesOn).1
  have hleave := stacks_exitBlock (hinner ▸ hb)
  rw [List.append_nil] at hleave
  obtain ⟨hstacks, hnode⟩ := stacks_popFrame hleave
  exact ⟨(hgrows.trans (uniform_exitBlock.grows _)).trans (uniform_popFrame.grows _), hnode, hstacks⟩

theorem resumed_afterChild (isFragment : Bool) (child : Visited) (index : Nat) :
    Resumed c (afterChild visit isFragment child index c) := by
  have hgrows := (grows_enterChild child index c).trans (hvisit.grows (c.enterChild child index))
  have hinner := (hvisit.keeps (c.enterChild child index) (hgrows.collecting hc).goesOn).1
  obtain ⟨hstacks, hnode⟩ := stacks_takeChild isFragment hinner
  exact ⟨hgrows.trans (growing_takeChild isFragment _), hnode, hstacks⟩

theorem nestedBlocks_collecting (r : Visited) (roots : List Visited) :
    nestedBlocks visit (r :: roots) c = (do
      let rest ← nestedBlocks visit roots
      return ⟨r.loc.start.offset, r.loc.stop.offset, (exitBlock (visit (enterNested r c)).2).1⟩ :: rest
      : Lower (List NestedBlock)) (afterNested visit r c) := by
  have hgo : (afterNested visit r c).aborted = false :=
    ((resumed_afterNested hvisit hc r).grows.collecting hc).goesOn
  have hgo : ¬ (popFrame (exitBlock (visit (enterNested r c)).2).2).2.aborted = true := by
    rw [afterNested] at hgo
    simp [hgo]
  rw [nestedBlocks_cons]
  dsimp only
  rw [if_neg hgo]
  rfl

theorem lowerChildren_collecting (isFragment : Bool) (index : Nat) (child : Visited)
    (children : List Visited) :
    lowerChildren visit isFragment index (child :: children) c =
      lowerChildren visit isFragment (index + 1) children (afterChild visit isFragment child index c) := by
  have hgrows := (grows_enterChild child index c).trans (hvisit.grows (c.enterChild child index))
  have hgo := (hgrows.collecting hc).goesOn
  rw [lowerChildren_cons, if_neg (by simp [hgo])]
  rfl

end

theorem slotStep_exits (c : Context) :
    ∀ exit ∈ (slotStep c).1.reverse, exit.isOwn = true ∧ exit.isElement = false := by
  intro exit he
  rw [List.mem_reverse] at he
  exact ⟨leaves_slotStep.own (by decide) _ _ he, leaves_slotStep.other (by decide) _ _ he⟩

theorem resumed_slots {visit : Lower Unit} (hbalanced : Balanced visit) {c : Context} (hc : Collecting c) :
    Resumed c (runExits .none (slotStep c).1.reverse (childrenStep visit (slotStep c).2).2).2 := by
  have hgrows₃ := does_slotStep.grows c
  have hc₃ := hgrows₃.collecting hc
  have hchildren := fixed_childrenStep hbalanced
  have hgrows₄ := hchildren.grows (slotStep c).2
  have hc₄ := hgrows₄.collecting hc₃
  have hexits := slotStep_exits c
  have hgrows₅ := growing_runExits (fun exit he => (hexits exit he).1)
    (childrenStep visit (slotStep c).2).2
  have hunwinds := opens_slotStep.unwinds c hc₃.goesOn
  rw [← hchildren.kept _ hc₄.goesOn] at hunwinds
  refine ⟨(hgrows₃.trans hgrows₄).trans hgrows₅, ?_,
    (stacks_runExits hunwinds (hgrows₅.collecting hc₄).goesOn).1⟩
  rw [(hushing_runExits hexits _).node, hchildren.node _ hc₄.goesOn, (hushing_slotStep c).node]

/-! ## The course of a visit -/

/-- The states of a visit: the walk comes to the node, lowers the elements inside expressions, enters
slots, visits the children, leaves the slots, finishes the element, and does what else is left to do. -/
structure Course (visit : Lower Unit) (c c₁ c₂ c₃ c₄ c₅ c' : Context) : Prop where
  comes : c₁ = (approach c).2
  texts : c₂ = (textStep visit c₁).2
  slots : Hushed c₂ c₃
  slotless : (∀ path tag children, c₁.frame.node ≠ some (.node path (.element tag children))) → c₃ = c₂
  children : c₄ = (childrenStep visit c₃).2
  leaves : Hushed c₄ c₅
  ends : ∃ cursor, Hushed (exitElement .none cursor c₅).2 c'
  collecting : Collecting c₁ ∧ Collecting c₃
  node : c₃.frame.node = c₁.frame.node ∧ c₅.frame.node = c₁.frame.node
  opened : openBlocks c₂.log = openBlocks c₁.log ∧ openBlocks c₅.log = openBlocks c₁.log
  grows : Grows c₁ c₃ ∧ Grows c₃ c₄ ∧ Grows c₄ c'
  faults : (CutsNode c → c₁.fault = c.fault) ∧ (CutsNode c₂ → c₃.fault = c₂.fault) ∧
    c₅.fault = c₄.fault ∧ c'.fault = c₅.fault

theorem approach_exits (c : Context) : ∃ cursor others, (approach c).1 = .element cursor :: others ∧
    ∀ exit ∈ others, exit.isOwn = true ∧ exit.isElement = false := by
  let c₁ := (onceStep c).2
  let c₂ := (conditionStep c₁).2
  let c₃ := (loopStep c₂).2
  let c₄ := (referenceStep c₃).2
  refine ⟨⟨some c₄.block.effects.length, some c₄.block.operations.length⟩,
    (referenceStep c₃).1.reverse ++ ((loopStep c₂).1.reverse ++ (conditionStep c₁).1.reverse), rfl, ?_⟩
  intro exit he
  simp only [List.mem_append, List.mem_reverse] at he
  rcases he with he | he | he
  · exact ⟨leaves_referenceStep.own (by decide) _ _ he, leaves_referenceStep.other (by decide) _ _ he⟩
  · exact ⟨leaves_loopStep.own (by decide) _ _ he, leaves_loopStep.other (by decide) _ _ he⟩
  · exact ⟨leaves_conditionStep.own (by decide) _ _ he, leaves_conditionStep.other (by decide) _ _ he⟩

theorem unwinds_approach {c : Context} (hc : Collecting c) :
    Unwinds (approach c).1 (approach c).2.stacks c.stacks := by
  let c₁ := (onceStep c).2
  let c₂ := (conditionStep c₁).2
  let c₃ := (loopStep c₂).2
  let c₄ := (referenceStep c₃).2
  have hc₁ : Collecting c₁ := (does_onceStep.grows c).collecting hc
  have hc₂ : Collecting c₂ := (does_conditionStep.grows c₁).collecting hc₁
  have hc₃ : Collecting c₃ := (does_loopStep.grows c₂).collecting hc₂
  have hc₄ : Collecting c₄ := (does_referenceStep.grows c₃).collecting hc₃
  have honce := opens_onceStep.unwinds c hc₁.goesOn
  rw [onceStep_exits] at honce
  have hbranch := (opens_conditionStep.unwinds c₁ hc₂.goesOn).append honce
  rw [List.reverse_nil, List.append_nil] at hbranch
  have hloop := (opens_loopStep.unwinds c₂ hc₃.goesOn).append hbranch
  have hstored := (opens_referenceStep.unwinds c₃ hc₄.goesOn).append hloop
  exact (opens_elementStep.unwinds c₄ hc₄.goesOn).append hstored

theorem course_lowerNode {c : Context} (hc : Collecting c) (hnode : c.frame.node.isSome = true)
    (depth : Nat) : ∃ c₁ c₂ c₃ c₄ c₅,
      Course (lowerNode .none depth) c c₁ c₂ c₃ c₄ c₅ (lowerNode .none (depth + 1) c).2 := by
  have hbalanced := balanced_lowerNode depth
  have htextStep := fixed_textStep hbalanced
  have hchildrenStep := fixed_childrenStep hbalanced
  have hresult := lowerNode_collecting hc hnode depth
  obtain ⟨cursor, others, hleft, hothers⟩ := approach_exits c
  simp only [run_bind, hleft] at hresult
  have hc₁ := (nears_approach c).grows.collecting hc
  rw [hresult]
  generalize hcomes : (approach c).2 = c₁ at hc₁ ⊢
  generalize htexts : (textStep (lowerNode .none depth) c₁).2 = c₂
  have hgrows₂ : Grows c₁ c₂ := htexts ▸ htextStep.grows c₁
  have hc₂ := hgrows₂.collecting hc₁
  have hstacks₂ : c₂.stacks = c₁.stacks := htexts ▸ htextStep.kept c₁ (htexts ▸ hc₂.goesOn)
  have hnode₂ : c₂.frame.node = c₁.frame.node := htexts ▸ htextStep.node c₁ (htexts ▸ hc₂.goesOn)
  have hresumed := resumed_slots hbalanced hc₂
  have hslots := hushing_slotStep c₂
  have hslotFault := fault_slotStep (c := c₂)
  have hslotless := fun h => congrArg Prod.snd (slotStep_of_other (c := c₂) h)
  have hgrows₃ := does_slotStep.grows c₂
  have hc₃ := hgrows₃.collecting hc₂
  have hexits := slotStep_exits c₂
  generalize (slotStep c₂).1.reverse = exits at hresumed hexits ⊢
  generalize (slotStep c₂).2 = c₃ at hresumed hslots hslotFault hslotless hgrows₃ hc₃ ⊢
  generalize hchildren : (childrenStep (lowerNode .none depth) c₃).2 = c₄ at hresumed
  have hgrows₄ : Grows c₃ c₄ := hchildren ▸ hchildrenStep.grows c₃
  have hleaves := hushing_runExits hexits c₄
  have hleaveFault := clear_runExits (fun exit he => (hexits exit he).1) c₄
  have hgrows₅ := growing_runExits (fun exit he => (hexits exit he).1) c₄
  rw [runExits_append, runExits_cons]
  generalize (runExits .none exits c₄).2 = c₅ at hresumed hleaves hleaveFault hgrows₅ ⊢
  rw [if_neg (by simp [(hresumed.grows.collecting hc₂).goesOn])]
  refine ⟨c₁, c₂, c₃, c₄, c₅, ?_⟩
  exact
    { comes := hcomes.symm
      texts := htexts.symm
      slots := hslots
      slotless := hnode₂ ▸ hslotless
      children := hchildren.symm
      leaves := hleaves
      ends := ⟨cursor, hushing_runExits hothers _⟩
      collecting := ⟨hc₁, hc₃⟩
      node := ⟨hslots.node.trans hnode₂, hresumed.node.trans hnode₂⟩
      opened := ⟨congrArg Stacks.opened hstacks₂, congrArg Stacks.opened (hresumed.kept.trans hstacks₂)⟩
      grows := ⟨hgrows₂.trans hgrows₃, hgrows₄, (hgrows₅.trans ((does_exitElement cursor).grows c₅)).trans
        (growing_runExits (fun exit he => (hothers exit he).1) _)⟩
      faults := ⟨hcomes ▸ fault_approach hnode, hslotFault, hleaveFault,
        (clear_runExits (fun exit he => (hothers exit he).1) _).trans ((does_exitElement cursor).clear rfl c₅)⟩ }

end Lower

end JsxTemplate

/-! ## Relations between the states of a walk -/

namespace JsxTemplate

/-- Whether the current node and the one around it are nodes of the template. -/
structure Sound (t : Template) (c : Context) : Prop where
  node : ∀ v, c.frame.node = some v → v.Valid t
  parent : ∀ v, c.outer.head?.bind Frame.node = some v → v.Valid t

theorem sound_ofTemplate (o : LoweringOptions) (t : Template) : Sound t (Context.ofTemplate o t) := by
  constructor
  · rintro v ⟨⟩
    exact rfl
  · intro v hv
    cases hv

theorem Sound.below {t : Template} {c c' : Context} {v : Visited} (hnode : c'.frame.node = some v)
    (hvalid : v.Valid t) (houter : c'.outer.head? = some c.frame)
    (hc : ∀ v, c.frame.node = some v → v.Valid t) : Sound t c' := by
  constructor
  · intro w hw
    exact Option.some.inj (hnode.symm.trans hw) ▸ hvalid
  · rw [houter]
    exact hc

namespace Lower

/-- Whether a relation between states holds for each part of the visit of a node that has a property. -/
structure Tame (t : Template) (P : Visited → Prop) (R : Context → Context → Prop) : Prop where
  trans : ∀ {c c' c''}, R c c' → R c' c'' → R c c''
  calm : ∀ {c c'}, (∀ path, gatheredAt path c'.log = gatheredAt path c.log) →
    (∀ path purpose, purpose ≠ textPurpose → ((path, purpose) ∈ c'.seen ↔ (path, purpose) ∈ c.seen)) →
    c'.fault = c.fault → R c c'
  hushed : ∀ {c c'}, (∀ v, c.frame.node = some v → v.Valid t) → Hushed c c' →
    (CutsNode c → c'.fault = c.fault) → R c c'
  nears : ∀ {c c' v}, c.frame.node = some v → v.Valid t → P v → Nears c c' →
    (CutsNode c → c'.fault = c.fault) → R c c'
  exit : ∀ {c v}, c.frame.node = some v → P v → ∀ cursor, R c (exitElement .none cursor c).2
  wrapped : ∀ {path tag children}, P (.node path (.element tag children)) → P (.wrapped path tag children)
  child : ∀ {v s}, P v → s ∈ v.children → P s
  root : ∀ {vs r}, (∀ v ∈ vs, v.Valid t) → r ∈ nestedRoots vs → P r

def Relates (t : Template) (P : Visited → Prop) (R : Context → Context → Prop) (visit : Lower Unit) : Prop :=
  ∀ c v, Collecting c → Sound t c → c.frame.node = some v → P v → R c (visit c).2

theorem nested_of_mem_prepareText {t : Template} {c : Context} (hsound : Sound t c) {r : Visited}
    (hr : r ∈ (prepareText c).1.roots) :
    ∃ vs : List Visited, (∀ v ∈ vs, v.Valid t) ∧ r ∈ nestedRoots vs := by
  obtain ⟨v, hv, hr | ⟨-, parent, siblings, hparent, hsub, hr⟩⟩ := rootsAmong_prepareText c r hr
  · exact ⟨_, fun s hs => (hsound.node v hv).child hs, hr⟩
  · exact ⟨_, fun s hs => (hsound.parent parent hparent).child (hsub s hs), hr⟩

theorem Nears.valid {t : Template} {c c' : Context} (h : Nears c c') {v v' : Visited}
    (hv : c.frame.node = some v) (hv' : c'.frame.node = some v') (hvalid : v.Valid t) : v'.Valid t := by
  obtain ⟨w, hw, -, hkind⟩ := h.node v hv
  obtain rfl := Option.some.inj (hv'.symm.trans hw)
  rcases hkind with rfl | ⟨path, tag, children, rfl, rfl⟩
  · exact hvalid
  · exact hvalid

namespace Tame

variable {t : Template} {P : Visited → Prop} {R : Context → Context → Prop} (h : Tame t P R)

include h

theorem refl (c : Context) : R c c := h.calm (fun _ => rfl) (fun _ _ _ => Iff.rfl) rfl

theorem compositional : Compositional fun {α : Type} (x : Lower α) => ∀ c, R c (x c).2 where
  calm := by
    intro α deeds x hx hd c
    have hcalm := hx.calm hd c
    exact h.calm (fun path => by rw [hcalm.log]) hcalm.marks hcalm.fault
  bind := fun hx hf c => h.trans (hx c) (hf _ _)

theorem popFrame (c : Context) : R c (Lower.popFrame c).2 := by
  rw [popFrame_run]
  exact h.calm (fun _ => rfl) (fun _ _ _ => Iff.rfl) rfl

theorem exitBlock (c : Context) : R c (Lower.exitBlock c).2 := by
  have hhushed := hushed_exitBlock c
  exact h.calm hhushed.gathered (fun _ _ _ => by rw [hhushed.seen]) (clear_exitBlock c)

theorem takeChild (isFragment : Bool) (c : Context) : R c (Lower.takeChild isFragment c).2 := by
  have hadd : ∀ frame c, R c (addChild isFragment frame c).2 := fun _ _ =>
    h.calm (fun _ => rfl) (fun _ _ _ => Iff.rfl) rfl
  have hpop : ∀ c, R c ((Lower.popFrame >>= addChild isFragment) c).2 := fun c =>
    h.trans (h.popFrame c) (hadd _ _)
  unfold Lower.takeChild
  split
  · exact h.trans (h.compositional.calm does_addToBlock rfl c) (hpop _)
  · exact hpop c

section

variable {visit : Lower Unit} (hvisit : Relates t P R visit)

include hvisit

theorem afterNested {r : Visited} (hr : r.Valid t) (hP : P r) {c : Context} (hc : Collecting c)
    (hv : ∀ v, c.frame.node = some v → v.Valid t) : R c (Lower.afterNested visit r c) := by
  have hsound : Sound t (enterNested r c) := .below (c := c) rfl hr rfl hv
  have henter : R c (enterNested r c) := h.calm (fun _ => rfl) (fun _ _ _ => Iff.rfl) rfl
  have hinner := hvisit _ r ((grows_enterNested r c).collecting hc) hsound rfl hP
  exact h.trans (h.trans (h.trans henter hinner) (h.exitBlock _)) (h.popFrame _)

theorem afterChild {s : Visited} (hs : s.Valid t) (hP : P s) {c : Context} (hc : Collecting c)
    (hv : ∀ v, c.frame.node = some v → v.Valid t) (isFragment : Bool) (index : Nat) :
    R c (Lower.afterChild visit isFragment s index c) := by
  have hsound : Sound t (c.enterChild s index) := .below (c := c) rfl hs rfl hv
  have henter : R c (c.enterChild s index) := h.calm (fun _ => rfl) (fun _ _ _ => Iff.rfl) rfl
  have hinner := hvisit _ s ((grows_enterChild s index c).collecting hc) hsound rfl hP
  exact h.trans (h.trans henter hinner) (h.takeChild _ _)

variable (hbalanced : Balanced visit)

include hbalanced

theorem nestedBlocks {roots : List Visited} (hroots : ∀ r ∈ roots, r.Valid t ∧ P r) {c : Context}
    (hc : Collecting c) (hv : ∀ v, c.frame.node = some v → v.Valid t) :
    R c (Lower.nestedBlocks visit roots c).2 := by
  induction roots generalizing c with
  | nil => exact h.refl c
  | cons r roots ih =>
    obtain ⟨hr, hP⟩ := hroots r List.mem_cons_self
    have hresumed := resumed_afterNested hbalanced hc r
    rw [nestedBlocks_collecting hbalanced hc]
    refine h.trans (h.afterNested hvisit hr hP hc hv)
      (ih (fun s hs => hroots s (List.mem_cons_of_mem _ hs)) (hresumed.grows.collecting hc) ?_)
    rw [hresumed.node]
    exact hv

theorem lowerChildren (isFragment : Bool) (index : Nat) {children : List Visited}
    (hchildren : ∀ s ∈ children, s.Valid t ∧ P s) {c : Context} (hc : Collecting c)
    (hv : ∀ v, c.frame.node = some v → v.Valid t) :
    R c (Lower.lowerChildren visit isFragment index children c).2 := by
  induction children generalizing index c with
  | nil => exact h.refl c
  | cons child children ih =>
    obtain ⟨hchild, hP⟩ := hchildren child List.mem_cons_self
    have hresumed := resumed_afterChild hbalanced hc isFragment child index
    rw [lowerChildren_collecting hbalanced hc]
    refine h.trans (h.afterChild hvisit hchild hP hc hv isFragment index)
      (ih (index + 1) (fun s hs => hchildren s (List.mem_cons_of_mem _ hs))
        (hresumed.grows.collecting hc) ?_)
    rw [hresumed.node]
    exact hv

theorem textStep {c : Context} (hc : Collecting c) (hsound : Sound t c) : R c (Lower.textStep visit c).2 := by
  have hprepare := Fixed.compositional.calm does_prepareText rfl
  have hc₁ := (hprepare.grows c).collecting hc
  have hroots : ∀ r ∈ (prepareText c).1.roots, r.Valid t ∧ P r := by
    intro r hr
    obtain ⟨vs, hvs, hr⟩ := nested_of_mem_prepareText hsound hr
    exact ⟨valid_of_mem_nestedRoots hvs hr, h.root hvs hr⟩
  have hnode : ∀ v, (prepareText c).2.frame.node = some v → v.Valid t := by
    rw [hprepare.node c hc₁.goesOn]
    exact hsound.node
  have hnested := h.nestedBlocks hvisit hbalanced hroots hc₁ hnode
  rw [Lower.textStep]
  exact h.trans (h.trans (h.compositional.calm does_prepareText rfl c) hnested)
    (h.compositional.calm (does_finishText _ _) rfl _)

theorem childrenStep {c : Context} (hc : Collecting c) {v : Visited} (hv : c.frame.node = some v)
    (hvalid : v.Valid t) (hP : ∀ s ∈ v.children, P s) : R c (Lower.childrenStep visit c).2 := by
  have hlower := h.lowerChildren hvisit hbalanced v.isFragment 0
    (fun s hs => ⟨hvalid.child hs, hP s hs⟩) hc
    (fun w hw => Option.some.inj (hv.symm.trans hw) ▸ hvalid)
  obtain ⟨runs, heq, -⟩ := childrenStep_eq visit hv
  rw [heq]
  exact h.trans hlower (h.compositional.calm (does_insertRuns runs) rfl _)

theorem course {c c₁ c₂ c₃ c₄ c₅ c' : Context} (hcourse : Course visit c c₁ c₂ c₃ c₄ c₅ c')
    (hsound : Sound t c) {v : Visited} (hv : c.frame.node = some v) : R c₁ c₃ := by
  have hnears : Nears c c₁ := hcourse.comes ▸ nears_approach c
  obtain ⟨v₁, hv₁, -⟩ := hnears.path hv
  have hvalid₁ : ∀ w, c₁.frame.node = some w → w.Valid t := fun w hw =>
    hnears.valid hv hw (hsound.node v hv)
  have hnode₂ : c₂.frame.node = c₁.frame.node := hcourse.slots.node.symm.trans hcourse.node.1
  have htexts : R c₁ c₂ :=
    hcourse.texts ▸ h.textStep hvisit hbalanced hcourse.collecting.1 ⟨hvalid₁, hnears.outer ▸ hsound.parent⟩
  exact h.trans htexts (h.hushed (hnode₂ ▸ hvalid₁) hcourse.slots hcourse.faults.2.1)

end

theorem lowerNode (depth : Nat) : Relates t P R (Lower.lowerNode .none depth) := by
  induction depth with
  | zero => exact fun c _ _ _ _ _ => h.refl c
  | succ depth ih =>
    intro c v hc hsound hv hP
    obtain ⟨c₁, c₂, c₃, c₄, c₅, hcourse⟩ := course_lowerNode hc (by rw [hv]; rfl) depth
    have hnears : Nears c c₁ := hcourse.comes ▸ nears_approach c
    obtain ⟨v₁, hv₁, -, hkind⟩ := hnears.node v hv
    have hvalid := hsound.node v hv
    have hvalid₁ := hnears.valid hv hv₁ hvalid
    have hP₁ : P v₁ := by
      rcases hkind with rfl | ⟨path, tag, children, rfl, rfl⟩
      · exact hP
      · exact h.wrapped hP
    have hbalanced := balanced_lowerNode depth
    have hv₃ := hcourse.node.1.trans hv₁
    have hv₅ := hcourse.node.2.trans hv₁
    obtain ⟨hcomesFault, -, hleavesFault, hendsFault⟩ := hcourse.faults
    obtain ⟨cursor, hends⟩ := hcourse.ends
    have hcomes : R c c₁ := h.nears hv hvalid hP hnears hcomesFault
    have hbefore : R c₁ c₃ := h.course ih hbalanced hcourse hsound hv
    have hchildren : R c₃ c₄ :=
      hcourse.children ▸ h.childrenStep ih hbalanced hcourse.collecting.2 hv₃ hvalid₁ fun s => h.child hP₁
    have hleaves : R c₄ c₅ := h.calm hcourse.leaves.gathered
      (fun _ _ _ => by rw [hcourse.leaves.seen]) hleavesFault
    have hexit := h.exit hv₅ hP₁ cursor
    have hrest := h.calm hends.gathered (fun _ _ _ => by rw [hends.seen])
      (hendsFault.trans ((does_exitElement cursor).clear rfl c₅).symm)
    exact h.trans (h.trans (h.trans (h.trans (h.trans hcomes hbefore) hchildren) hleaves) hexit) hrest

end Tame

theorem tame_fault {t : Template} (ht : t.CutsLoops) : Tame t (fun _ => True) fun c c' => c'.fault = c.fault where
  trans := fun h h' => h'.trans h
  calm := fun _ _ h => h
  hushed := fun hv _ h => h fun path tag children hnode => ht path tag children (hv _ hnode)
  nears := by
    intro c c' v hv hvalid _ _ h
    refine h fun path tag children hnode => ht path tag children ?_
    obtain rfl := Option.some.inj (hv.symm.trans hnode)
    exact hvalid
  exit := fun _ _ cursor => (does_exitElement cursor).clear rfl _
  wrapped := fun _ => trivial
  child := fun _ _ => trivial
  root := fun _ _ => trivial

end Lower

end JsxTemplate
