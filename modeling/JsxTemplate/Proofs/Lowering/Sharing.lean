import JsxTemplate.Proofs.Lowering.Course
import JsxTemplate.Proofs.Lowering.Pieces
import JsxTemplate.Proofs.Template.Static

/-!
# Static nodes share their markup

A visit of a static node makes its markup and nothing else that depends on where the node stands. So two
static nodes on top of blocks that differ only in their places become the same piece of markup.
-/

namespace JsxTemplate

variable {tag : Tag}

theorem Tag.isStatic_iff : tag.isStatic = true ↔
    tag.type = .element ∧ tag.items.all TagItem.isPlain = true ∧ tag.isStored = false ∧
      tag.isFolded = true := by
  simp [Tag.isStatic, and_assoc]

section

variable {tag : Tag} (h : tag.items.all TagItem.isPlain = true)

include h

theorem Tag.directiveBody?_of_plain {a : Attribute} (ha : a ∈ tag.attributes) :
    Tag.directiveBody? a = none := by
  obtain ⟨item, hitem, hattr⟩ := List.mem_filterMap.mp ha
  have hplain := List.all_eq_true.mp h item hitem
  rcases item with a' | ⟨e, loc⟩
  · obtain rfl : a' = a := by simpa [TagItem.attribute?] using hattr
    simp only [TagItem.isPlain, Bool.and_eq_true, Option.isNone_iff_eq_none] at hplain
    exact hplain.1
  · simp [TagItem.attribute?] at hattr

theorem Tag.directive?_of_plain (name : String) : tag.directive? name = none := by
  rw [Tag.directive?, List.findSome?_eq_none_iff]
  intro a ha
  simp [Tag.directiveBody?_of_plain h ha]

theorem Tag.hasDirective_of_plain (names : List String) : tag.hasDirective names = false := by
  rw [Tag.hasDirective, List.any_eq_false]
  intro a ha
  simp [Tag.directiveBody?_of_plain h ha]

end

namespace Lower

/-! ## Steps at a static node -/

section

variable {c : Context} {path : Path} {n : Node} (hnode : c.frame.node = some (.node path n))
  (hstatic : n.isStatic = true)

include hnode hstatic

theorem ownSteps_static : onceStep c = ([], c) ∧ conditionStep c = ([], c) ∧ loopStep c = ([], c) ∧
    referenceStep c = ([], c) ∧ slotStep c = ([], c) := by
  have hread : (node c).1 = some (.node path n) := hnode
  cases n with
  | element tag children =>
    simp only [Node.isStatic, Bool.and_eq_true, Tag.isStatic_iff] at hstatic
    obtain ⟨⟨htype, hplain, hstored, -⟩, -⟩ := hstatic
    rw [Tag.isStored, Option.isSome_eq_false_iff, Option.isNone_iff_eq_none] at hstored
    have hcondition : conditionDirective? tag = none := by
      simp [conditionDirective?, Tag.directive?_of_plain hplain]
    have hcomponent : tag.isComponent = false := by simp [Tag.isComponent, htype]
    refine ⟨?_, ?_, ?_, ?_, ?_⟩
    · simp only [onceStep, run_bind, hread, Tag.hasDirective_of_plain hplain ["once"]]
      rfl
    · simp only [conditionStep, run_bind, hread, hcondition]
      split <;> rfl
    · simp only [loopStep, run_bind, hread, Tag.directive?_of_plain hplain]
      rfl
    · simp only [referenceStep, run_bind, hread, hstored]
      rfl
    · simp only [slotStep, run_bind, hread, Tag.directive?_of_plain hplain, hcomponent]
      rfl
  | text content loc =>
    refine ⟨?_, ?_, ?_, ?_, ?_⟩ <;>
      simp only [onceStep, conditionStep, loopStep, referenceStep, slotStep, run_bind, hread] <;> rfl
  | _ => simp [Node.isStatic] at hstatic

end

/-! ## Writing a static element -/

section

variable {tag : Tag} (hplain : tag.items.all TagItem.isPlain = true) (htype : tag.type = .element)

include htype in
theorem gatherItem_plain {item : TagItem} (h : item.isPlain = true) (children : List Node)
    (draft : PropertyDraft) (cursor : Cursor) (c : Context) :
    gatherItem .none tag children item draft cursor c = ((item.gather tag draft, cursor), c) := by
  have hcomponent : tag.isComponent = false := by simp [Tag.isComponent, htype]
  rcases item with a | ⟨e, loc⟩
  · have hbind := TagItem.ofAttribute_of_isPlain h
    have hstep : propertyOf .none (Directive.ofAttribute a false) tag children c =
        ((Directive.ofAttribute a false).boundProperty? tag, c) := by
      rw [hbind]
      rfl
    rw [gatherItem, TagItem.gather, hcomponent]
    generalize Directive.ofAttribute a false = d at hbind hstep
    have hname : d.name = "bind" := by rw [hbind]
    have harg : d.arg.isNone = false := by rw [hbind]; rfl
    simp only [hname, harg, bne_self_eq_false, Bool.false_and, Bool.false_eq_true, if_false, beq_self_eq_true,
      Bool.and_true]
    split
    · rfl
    · rw [run_bind, hstep]
      cases d.boundProperty? tag <;> rfl
  · simp [TagItem.isPlain] at h

include hplain htype in
theorem propertiesOf_plain (children : List Node) (cursor : Cursor) (c : Context) :
    propertiesOf .none tag children cursor c = ((tag.properties, cursor), c) := by
  have hitems : ∀ (items : List TagItem) (draft : PropertyDraft), items.all TagItem.isPlain = true →
      gatherItems .none tag children items draft cursor c =
        ((items.foldl (TagItem.gather tag) draft, cursor), c) := by
    intro items
    induction items with
    | nil => exact fun _ _ => rfl
    | cons item items ih =>
      intro draft h
      simp only [List.all_cons, Bool.and_eq_true] at h
      rw [gatherItems, run_bind, gatherItem_plain htype h.1]
      exact ih _ h.2
  rw [propertiesOf, run_bind, hitems tag.items _ hplain]
  rfl

end

theorem writeProperties_folded (tag : Tag) {ps : List Property} {keys : List String}
    (h : Property.unfolded keys ps = []) (cursor : Cursor) (c : Context) :
    writeProperties tag ps keys cursor c = (String.join (ps.map Property.markup), c) := by
  induction ps with
  | nil => rfl
  | cons p ps ih =>
    rw [Property.unfolded] at h
    rw [writeProperties]
    split at h
    · next hfold =>
      rw [if_pos hfold, run_bind, ih h]
      simp
    · cases h

theorem attributesOf_folded (h : tag.isFolded = true) (cursor : Cursor) (c : Context) :
    attributesOf tag tag.properties cursor c = (tag.attributeMarkup, c) := by
  unfold Tag.isFolded at h
  unfold attributesOf Tag.attributeMarkup
  cases hproperties : tag.properties with
  | fixed ps =>
    rw [hproperties] at h
    exact writeProperties_folded tag (by simpa using h) cursor c
  | grouped groups expressions => simp [hproperties] at h

end Lower

/-- Whether a node is misplaced in the node around it. -/
def Node.isMisplacedBelow (parent : Option Visited) (n : Node) : Bool :=
  (parent.bind Visited.tag?).any fun tag => tag.type == .element && n.isMisplacedIn tag

/-- What a visit of a static node leaves as it was. -/
structure Spared (c c' : Context) : Prop where
  outer : c'.outer = c.outer
  saved : c'.saved = c.saved
  seen : c'.seen = c.seen
  aborted : c'.aborted = c.aborted
  discarding : c'.discarding = c.discarding
  node : c'.frame.node = c.frame.node

theorem Spared.trans {c c' c'' : Context} (h : Spared c c') (h' : Spared c' c'') : Spared c c'' :=
  ⟨h'.outer.trans h.outer, h'.saved.trans h.saved, h'.seen.trans h.seen, h'.aborted.trans h.aborted,
    h'.discarding.trans h.discarding, h'.node.trans h.node⟩

/-- Whether a node was rendered as markup, or is inserted where it stands. -/
structure Rendered (markup : String) (misplaced : Bool) (c c' : Context) : Prop extends Spared c c' where
  template : c'.frame.template = if misplaced then "" else markup
  marks : c'.frame.plan.nonTemplate = misplaced ∧ c'.frame.plan.insert = misplaced

/-- Whether the markup inside a node was changed, but not that of the node itself. -/
structure Stocked (templates : List String) (c c' : Context) : Prop extends Spared c c' where
  childTemplates : c'.frame.childTemplates = templates
  template : c'.frame.template = c.frame.template
  nonTemplate : c'.frame.plan.nonTemplate = c.frame.plan.nonTemplate
  insert : c'.frame.plan.insert = c.frame.plan.insert

theorem Stocked.trans {templates templates' : List String} {c c' c'' : Context}
    (h : Stocked templates c c') (h' : Stocked templates' c' c'') : Stocked templates' c c'' :=
  ⟨h.toSpared.trans h'.toSpared, h'.childTemplates, h'.template.trans h.template,
    h'.nonTemplate.trans h.nonTemplate, h'.insert.trans h.insert⟩

namespace Lower

variable {c : Context} {path : Path}

theorem stocked_reference (c : Context) : Stocked c.frame.childTemplates c (reference c).2 := by
  obtain ⟨_, _, _, h⟩ := reference_state c
  rw [h]
  exact ⟨⟨rfl, rfl, rfl, rfl, rfl, rfl⟩, rfl, rfl, rfl, rfl⟩

theorem isMisplaced_run (tag : Tag) (children : List Node) (c : Context) :
    isMisplaced tag c =
      ((Node.element tag children).isMisplacedBelow (c.outer.head?.bind Frame.node), c) := by
  simp only [isMisplaced, parentNode, parentFrame?, run_bind, run_get, run_pure, Node.isMisplacedBelow]
  cases (c.outer.head?.bind Frame.node).bind Visited.tag? <;> rfl

theorem rendered_placeElement (tag : Tag) (children : List Node) (markup : String)
    (htemplate : c.frame.template = "")
    (hmarks : c.frame.plan.nonTemplate = false ∧ c.frame.plan.insert = false) :
    Rendered markup ((Node.element tag children).isMisplacedBelow (c.outer.head?.bind Frame.node)) c
      (placeElement tag markup c).2 := by
  have hrun : placeElement tag markup c =
      (if (isMisplaced tag c).1 then do
        let _ ← reference
        let index ← pushPiece markup
        modifyPlan fun p => { p with template := index, insert := true, nonTemplate := true }
      else modifyFrame fun f => { f with template := f.template ++ markup } : Lower Unit)
        (isMisplaced tag c).2 := rfl
  rw [hrun, isMisplaced_run tag children]
  cases (Node.element tag children).isMisplacedBelow (c.outer.head?.bind Frame.node) with
  | false =>
    refine ⟨⟨rfl, rfl, rfl, rfl, rfl, rfl⟩, ?_, hmarks⟩
    show c.frame.template ++ markup = markup
    rw [htemplate, String.empty_append]
  | true =>
    have hnumber := stocked_reference c
    have hpiece : ∀ c, Spared c (pushPiece markup c).2 ∧ (pushPiece markup c).2.frame = c.frame := by
      intro c
      have hpush : pushPiece markup c = (if c.discarding then return none
        else return some (← pushTemplate markup) : Lower (Option Nat)) c := rfl
      rw [hpush, run_ite]
      split
      · exact ⟨⟨rfl, rfl, rfl, rfl, rfl, rfl⟩, rfl⟩
      · obtain ⟨pieces, hstate, -⟩ := pushTemplate_spec markup c
        rw [run_bind, run_pure, hstate]
        exact ⟨⟨rfl, rfl, rfl, rfl, rfl, rfl⟩, rfl⟩
    obtain ⟨hspared', hframe⟩ := hpiece (reference c).2
    have hboth := hnumber.toSpared.trans hspared'
    refine ⟨⟨hboth.outer, hboth.saved, hboth.seen, hboth.aborted, hboth.discarding, hboth.node⟩, ?_, rfl, rfl⟩
    show (pushPiece markup (reference c).2).2.frame.template = ""
    rw [hframe, hnumber.template, htemplate]

theorem rendered_exitElement {children : List Node}
    (hnode : c.frame.node = some (.node path (.element tag children))) (hstatic : tag.isStatic = true)
    (htemplate : c.frame.template = "")
    (hmarks : c.frame.plan.nonTemplate = false ∧ c.frame.plan.insert = false) (cursor : Cursor) :
    Rendered (elementMarkup tag tag.attributeMarkup (String.join c.frame.childTemplates))
      ((Node.element tag children).isMisplacedBelow (c.outer.head?.bind Frame.node)) c
      (exitElement .none cursor c).2 := by
  obtain ⟨htype, hplain, -, hfolded⟩ := Tag.isStatic_iff.mp hstatic
  have hread : (node c).1 = some (.node path (.element tag children)) := hnode
  have htypes : (tag.type == .template) = false := by simp [htype]
  have hcomponent : tag.isComponent = false := by simp [Tag.isComponent, htype]
  have hrun : ∃ frame log, (exitElement .none cursor c).2 =
      (placeElement tag (elementMarkup tag tag.attributeMarkup (String.join c.frame.childTemplates))
        { c with frame, log }).2 ∧ frame.node = c.frame.node ∧ frame.plan = c.frame.plan ∧
          frame.template = c.frame.template := by
    let c₁ := (note (.gathered path) c).2
    refine ⟨{ c.frame with
      childTemplates := [], rootTemplate := c.frame.rootTemplate || (isSingleRoot c₁).1 },
      .gathered path :: c.log, ?_, rfl, rfl, rfl⟩
    have hproperties := propertiesOf_plain hplain htype children cursor c₁
    have hattributes := attributesOf_folded hfolded cursor c₁
    have hstart : (exitElement .none cursor c).2 =
        (lowerElement tag (propertiesOf .none tag children cursor c₁).1.1
          (isSingleRoot (propertiesOf .none tag children cursor c₁).2).1
          (propertiesOf .none tag children cursor c₁).1.2
          (isSingleRoot (propertiesOf .none tag children cursor c₁).2).2).2 := by
      simp only [exitElement, run_bind, hread, htypes, hcomponent, Bool.false_eq_true, if_false]
      rfl
    rw [hstart, hproperties]
    show (lowerElement tag tag.properties (isSingleRoot c₁).1 cursor c₁).2 = _
    rw [lowerElement, run_bind, hattributes]
    rfl
  obtain ⟨frame, log, hrun, hkept, hplan, hempty⟩ := hrun
  rw [hrun]
  have hplace := rendered_placeElement (c := { c with frame, log }) tag children
    (elementMarkup tag tag.attributeMarkup (String.join c.frame.childTemplates))
    (hempty.trans htemplate) (by rw [hplan]; exact hmarks)
  exact ⟨⟨hplace.outer, hplace.saved, hplace.seen, hplace.aborted, hplace.discarding,
    hplace.node.trans hkept⟩, hplace.template, hplace.marks⟩

/-! ## The children of a static element -/

theorem stocked_insertRun (run : List Nat) (place : Option Anchor) (c : Context) :
    Stocked c.frame.childTemplates c (insertRun run place c).2 := by
  refine (stocked_reference c).trans ?_
  rw [insertRun_eq]
  dsimp only
  have hnumber := (stocked_reference c).childTemplates
  split <;> exact ⟨⟨rfl, rfl, rfl, rfl, rfl, rfl⟩, hnumber, rfl, rfl, rfl⟩

theorem stocked_insertRuns (runs : List (List Nat × RunPlace)) (c : Context) :
    Stocked (fillPlaces runs c.frame.childTemplates) c (insertRuns runs c).2 := by
  induction runs generalizing c with
  | nil => exact ⟨⟨rfl, rfl, rfl, rfl, rfl, rfl⟩, rfl, rfl, rfl, rfl⟩
  | cons r runs ih =>
    obtain ⟨run, place⟩ := r
    cases place with
    | front =>
      have hrun := stocked_insertRun run (some .front) c
      have hrest := ih (insertRun run (some .front) c).2
      rw [hrun.childTemplates] at hrest
      exact hrun.trans hrest
    | back =>
      have hrun := stocked_insertRun run none c
      have hrest := ih (insertRun run none c).2
      rw [hrun.childTemplates] at hrest
      exact hrun.trans hrest
    | middle =>
      let c₁ := (putPlaceholder (run.headD 0) c).2
      have hplace : Stocked (c.frame.childTemplates.set (run.headD 0) "<!>") c c₁ :=
        ⟨⟨rfl, rfl, rfl, rfl, rfl, rfl⟩, rfl, rfl, rfl, rfl⟩
      have hrun := hplace.trans (stocked_insertRun run (some (.node c.nextId)) c₁)
      have hrest := ih (insertRun run (some (.node c.nextId)) c₁).2
      rw [hrun.childTemplates, hplace.childTemplates] at hrest
      exact hrun.trans hrest

theorem insertionRuns_congr {plans plans' : List NodePlan}
    (h : plans.map (fun p => (p.nonTemplate, p.insert)) = plans'.map fun p => (p.nonTemplate, p.insert))
    (index : Nat) (run : List Nat) (afterStatic : Bool) :
    insertionRuns index run afterStatic plans = insertionRuns index run afterStatic plans' := by
  induction plans generalizing plans' index run afterStatic with
  | nil =>
    obtain rfl : plans' = [] := by simpa using h.symm
    rfl
  | cons p plans ih =>
    rcases plans' with _ | ⟨p', plans'⟩
    · simp at h
    · simp only [List.map_cons, List.cons.injEq, Prod.mk.injEq] at h
      obtain ⟨⟨hnon, hinsert⟩, hrest⟩ := h
      rw [insertionRuns, insertionRuns, hnon, hinsert]
      simp only [ih hrest]

/-- Whether nothing at or below a place is marked as part of a group of texts. -/
def Unmarked (path : Path) (c : Context) : Prop := ∀ below, (below ++ path, textPurpose) ∉ c.seen

/-- Whether static nodes up to a height are rendered. -/
def RendersStatic (height : Nat) (visit : Lower Unit) : Prop :=
  ∀ (c : Context) (path : Path) (n : Node) (index : Nat) (once : Bool),
    c.frame = .ofNode (.node path n) index once → n.isStatic = true → n.height ≤ height →
    c.aborted = false → Unmarked path c →
    Rendered n.markup (n.isMisplacedBelow (c.outer.head?.bind Frame.node)) c (visit c).2

theorem stocked_lowerChildren {height : Nat} {visit : Lower Unit} (hvisit : RendersStatic height visit)
    {parent : Tag} (hparent : parent.type = .element) {path : Path} {all : List Node} (index : Nat)
    {ns : List Node} {c : Context} (hnode : c.frame.node = some (.node path (.element parent all)))
    (hstatic : Node.isStaticAll ns = true) (hheight : Node.heightAll ns ≤ height)
    (ha : c.aborted = false) (hmarks : Unmarked path c) :
    let r := lowerChildren visit false index
      ((ns.zipIdx index).map fun n => Visited.node (n.2 :: path) n.1) c
    r.1 = true ∧ Stocked (c.frame.childTemplates ++ Node.markupsIn parent ns) c r.2 ∧
      r.2.frame.plan.children.map (fun p => (p.nonTemplate, p.insert)) =
        c.frame.plan.children.map (fun p => (p.nonTemplate, p.insert)) ++
          ns.map fun n => (n.isMisplacedIn parent, n.isMisplacedIn parent) := by
  induction ns generalizing index c with
  | nil =>
    refine ⟨rfl, ⟨⟨rfl, rfl, rfl, rfl, rfl, rfl⟩, ?_, rfl, rfl, rfl⟩, ?_⟩
    · simp [Node.markupsIn, lowerChildren]
    · simp [lowerChildren]
  | cons n ns ih =>
    simp only [Node.isStaticAll, Bool.and_eq_true] at hstatic
    rw [Node.heightAll, Nat.max_le] at hheight
    let c₁ := c.enterChild (.node (index :: path) n) index
    have hchild := hvisit c₁ (index :: path) n index c.frame.once rfl hstatic.1 hheight.1 ha
      fun below hmem => hmarks (below ++ [index]) (by simpa [c₁, Context.enterChild] using hmem)
    have hplace : n.isMisplacedBelow (c₁.outer.head?.bind Frame.node) = n.isMisplacedIn parent := by
      simp [c₁, Context.enterChild, hnode, Node.isMisplacedBelow, Visited.tag?, hparent]
    rw [hplace] at hchild
    have houter : (visit c₁).2.outer = c.frame :: c.outer := hchild.outer
    have hgo : ¬ (visit c₁).2.aborted = true := by
      rw [hchild.aborted]
      simp [c₁, Context.enterChild, ha]
    let c₂ := (takeChild false (visit c₁).2).2
    have heq : c₂ = { (visit c₁).2 with frame := c.frame, outer := c.outer }.adopt (visit c₁).2 false := by
      simp only [c₂]
      rw [takeChild_eq houter]
      simp
    have htake : Stocked (c.frame.childTemplates ++ [if n.isMisplacedIn parent then "" else n.markup]) c c₂ := by
      rw [heq]
      refine ⟨⟨rfl, hchild.saved, hchild.seen, hchild.aborted, hchild.discarding, rfl⟩, ?_, rfl, rfl, rfl⟩
      simp [Context.adopt, hchild.template]
    obtain ⟨hgoes, hrest, hplans⟩ := ih (index + 1) (c := c₂) (htake.node.trans hnode) hstatic.2 hheight.2
      (htake.aborted.trans ha) fun below => by
        rw [htake.seen]
        exact hmarks below
    rw [List.zipIdx_cons, List.map_cons]
    simp only [lowerChildren_cons]
    rw [if_neg hgo, run_bind]
    refine ⟨hgoes, ?_, ?_⟩
    · rw [Node.markupsIn]
      rw [htake.childTemplates, List.append_assoc, List.singleton_append] at hrest
      exact htake.trans hrest
    · refine hplans.trans ?_
      rw [heq]
      simp [Context.adopt, hchild.marks]

/-! ## Visits of static nodes -/

theorem runSteps_step {step : Lower (List Exit)} {c c' : Context} (h : step c = ([], c'))
    (ha : c'.aborted = false) (hnode : c'.frame.node.isSome = true) (steps : List (Lower (List Exit)))
    (exits : List Exit) : runSteps (step :: steps) exits c = runSteps steps exits c' := by
  have hgo : ¬ (c'.aborted || c'.frame.node.isNone) = true := by
    rw [ha, ← Option.not_isSome, hnode]
    simp
  rw [runSteps_cons, h, if_neg hgo]
  rfl

theorem lowerNode_static {c c₁ c₂ : Context} {n : Node} {depth : Nat}
    (hnode : c.frame.node = some (.node path n)) (hstatic : n.isStatic = true) (ha : c.aborted = false)
    (htexts : textStep (lowerNode .none depth) c = ([], c₁))
    (hkept₁ : c₁.frame.node = c.frame.node ∧ c₁.aborted = false)
    (hchildren : childrenStep (lowerNode .none depth) c₁ = ([], c₂))
    (hkept₂ : c₂.frame.node = c.frame.node ∧ c₂.aborted = false) :
    ∃ cursor, (lowerNode .none (depth + 1) c).2 = (exitElement .none cursor c₂).2 := by
  have hsome : c.frame.node.isSome = true := by rw [hnode]; rfl
  have hgo : ¬ (c.aborted || c.frame.node.isNone) = true := by
    rw [ha, ← Option.not_isSome, hsome]
    simp
  have helement : elementStep c =
      ([.element ⟨some c.block.effects.length, some c.block.operations.length⟩], c) := rfl
  have hall : steps .none (lowerNode .none depth) = [onceStep, conditionStep, loopStep, referenceStep,
      elementStep, textStep (lowerNode .none depth), slotStep, childrenStep (lowerNode .none depth)] := rfl
  obtain ⟨-, -, -, -, hslots⟩ := ownSteps_static (hkept₁.1.trans hnode) hstatic
  obtain ⟨honce, hcondition, hloop, hreference, -⟩ := ownSteps_static hnode hstatic
  have hsteps : runSteps (steps .none (lowerNode .none depth)) [] c =
      (some [.element ⟨some c.block.effects.length, some c.block.operations.length⟩], c₂) := by
    rw [hall, runSteps_step honce ha hsome, runSteps_step hcondition ha hsome, runSteps_step hloop ha hsome,
      runSteps_step hreference ha hsome, runSteps_cons, helement, if_neg hgo,
      runSteps_step htexts hkept₁.2 (hkept₁.1 ▸ hsome),
      runSteps_step hslots hkept₁.2 (hkept₁.1 ▸ hsome),
      runSteps_step hchildren hkept₂.2 (hkept₂.1 ▸ hsome)]
    rfl
  refine ⟨⟨some c.block.effects.length, some c.block.operations.length⟩, ?_⟩
  rw [lowerNode_succ, hsteps]
  simp only [runExits_cons, hkept₂.2, Bool.false_eq_true, if_false]
  rfl

theorem not_isExpression_of_static {ns : List Node} (h : Node.isStaticAll ns = true) (path : Path)
    (index : Nat) :
    ((ns.zipIdx index).map fun c => Visited.node (c.2 :: path) c.1).any Visited.isExpression = false := by
  induction ns generalizing index with
  | nil => rfl
  | cons n ns ih =>
    simp only [Node.isStaticAll, Bool.and_eq_true] at h
    rw [List.zipIdx_cons, List.map_cons, List.any_cons, ih h.2]
    cases n with
    | expression => simp [Node.isStatic] at h
    | _ => rfl

theorem textStep_static_element (visit : Lower Unit) {children : List Node}
    (hnode : c.frame.node = some (.node path (.element tag children)))
    (hstatic : Node.isStaticAll children = true) (hunseen : (isSeen path textPurpose c).1 = false) :
    textStep visit c = ([], c) := by
  have hread : node c = (some (.node path (.element tag children)), c) := by
    rw [← hnode]
    rfl
  have hnone : (Visited.node path (.element tag children)).children.any Visited.isExpression = false :=
    not_isExpression_of_static hstatic path 0
  have hseen : isSeen path textPurpose c = (false, c) := by
    rw [← hunseen]
    rfl
  simp only [textStep, runText, prepareText, run_bind, hread, Visited.path, hseen, Bool.false_eq_true, if_false,
    prepareChildren, hnone]
  rfl

theorem rendersStatic_lowerNode (depth : Nat) : RendersStatic depth (lowerNode .none depth) := by
  induction depth with
  | zero =>
    intro c path n index once hframe hstatic hheight
    cases n <;> simp [Node.height] at hheight
  | succ depth ih =>
    intro c path n index once hframe hstatic hheight ha hmarks
    have hnode : c.frame.node = some (.node path n) := by rw [hframe]; rfl
    have hread : node c = (some (.node path n), c) := by rw [← hnode]; rfl
    have hunseen : (isSeen path textPurpose c).1 = false := by
      show c.seen.contains (path, textPurpose) = false
      rw [List.contains_eq_mem, decide_eq_false_iff_not]
      exact hmarks []
    have hseen : isSeen path textPurpose c = (false, c) := by rw [← hunseen]; rfl
    cases n with
    | text content loc =>
      let c₁ : Context :=
        { c with frame := { c.frame with template := c.frame.template ++ Html.escapeText content } }
      have hread₁ : node c₁ = (some (.node path (.text content loc)), c₁) := by rw [← hnode]; rfl
      have htexts : textStep (lowerNode .none depth) c = ([], c₁) := by
        simp only [textStep, runText, prepareText, run_bind, hread, Visited.path, hseen]
        rfl
      have hchildren : childrenStep (lowerNode .none depth) c₁ = ([], c₁) := by
        simp only [childrenStep, run_bind, hread₁]
        rfl
      obtain ⟨cursor, hrun⟩ := lowerNode_static hnode hstatic ha htexts ⟨rfl, ha⟩ hchildren ⟨rfl, ha⟩
      have hexit : exitElement .none cursor c₁ = ((), c₁) := by
        simp only [exitElement, run_bind, hread₁]
        rfl
      have hplaced : (Node.text content loc).isMisplacedBelow (c.outer.head?.bind Frame.node) = false := by
        simp [Node.isMisplacedBelow, Node.isMisplacedIn]
      rw [hrun, hexit, hplaced]
      refine ⟨⟨rfl, rfl, rfl, rfl, rfl, rfl⟩, ?_, ?_⟩
      · show c.frame.template ++ Html.escapeText content = (Node.text content loc).markup
        rw [hframe, Node.markup]
        exact String.empty_append
      · show c.frame.plan.nonTemplate = false ∧ c.frame.plan.insert = false
        rw [hframe]
        exact ⟨rfl, rfl⟩
    | element tag children =>
      simp only [Node.isStatic, Bool.and_eq_true] at hstatic
      rw [Node.height] at hheight
      have htype := (Tag.isStatic_iff.mp hstatic.1).1
      have htexts := textStep_static_element (lowerNode .none depth) hnode hstatic.2 hunseen
      obtain ⟨hgoes, hinside, hplans⟩ := stocked_lowerChildren ih htype 0 hnode hstatic.2 (by omega) ha hmarks
      let r := lowerChildren (lowerNode .none depth) false 0
        ((children.zipIdx 0).map fun n => Visited.node (n.2 :: path) n.1) c
      let runs := insertionRuns 0 [] false r.2.frame.plan.children
      have hchildren : childrenStep (lowerNode .none depth) c = ([], (insertRuns runs r.2).2) := by
        have hfragment : (Visited.node path (.element tag children)).isFragment = false := by
          simp [Visited.isFragment, htype]
        have hlower : lowerChildren (lowerNode .none depth) false 0
            (Visited.node path (.element tag children)).children c = (true, r.2) := by
          rw [← hgoes]
          rfl
        have htextLike : (Visited.node path (.element tag children)).isTextLike = false := rfl
        simp only [childrenStep, run_bind, hread, hfragment, htextLike, Bool.false_eq_true, if_false, hlower]
        rfl
      have hruns : runs = insertionRuns 0 [] false (children.map (Node.marksIn tag)) := by
        refine insertionRuns_congr (hplans.trans ?_) 0 [] false
        rw [hframe]
        simp [Frame.ofNode, NodePlan.empty, Node.marksIn]
      have hstocked := hinside.trans (stocked_insertRuns runs r.2)
      rw [hinside.childTemplates, hframe, hruns] at hstocked
      rw [hruns] at hchildren
      obtain ⟨cursor, hrun⟩ := lowerNode_static hnode (by simp [Node.isStatic, hstatic]) ha htexts ⟨rfl, ha⟩
        hchildren ⟨hstocked.node, hstocked.aborted.trans ha⟩
      have hexit := rendered_exitElement (hstocked.node.trans hnode) hstatic.1
        (by rw [hstocked.template, hframe]; rfl)
        (by rw [hstocked.nonTemplate, hstocked.insert, hframe]; exact ⟨rfl, rfl⟩) cursor
      rw [hrun, Node.markup, ← hstocked.outer]
      rw [hstocked.childTemplates] at hexit
      exact ⟨hstocked.toSpared.trans hexit.toSpared, hexit.template, hexit.marks⟩
    | _ => simp [Node.isStatic] at hstatic

/-- Whether a child at a place can become a top node of the block that is being filled, with its markup. -/
structure AtTop (path : Path) (c : Context) : Prop where
  goesOn : c.aborted = false
  fragment : ∃ v, c.frame.node = some v ∧ v.isFragment = true
  unmarked : Unmarked path c
  keeps : c.discarding = false

theorem Visited.not_native_of_isFragment {v : Visited} (h : v.isFragment = true) (n : Node) :
    n.isMisplacedBelow (some v) = false := by
  rcases v with t | ⟨path, m⟩ | ⟨path, tag, children⟩
  · rfl
  · cases m with
    | element tag children =>
      have htype : (tag.type == .element) = false := by simpa [Visited.isFragment] using h
      simp [Node.isMisplacedBelow, Visited.tag?, htype]
    | _ => rfl
  · rfl

theorem piece_of_static {n : Node} (hstatic : n.isStatic = true) (hfilled : n.markup ≠ "") {depth : Nat}
    (hdepth : n.height ≤ depth) (h : AtTop path c) (index : Nat) :
    ∃ k plan, let c' := afterChild (lowerNode .none depth) true (.node path n) index c
      c'.frame.plan.children = c.frame.plan.children ++ [plan] ∧ plan.template = some k ∧
        c'.templates[k]? = some n.markup := by
  obtain ⟨v, hv, hfragment⟩ := h.fragment
  let c₁ := (lowerNode .none depth (c.enterChild (.node path n) index)).2
  have hvisit := rendersStatic_lowerNode depth (c.enterChild (.node path n) index) path n index c.frame.once
    rfl hstatic hdepth h.goesOn h.unmarked
  have hplaced : n.isMisplacedBelow ((c.enterChild (.node path n) index).outer.head?.bind Frame.node) =
      false := by
    simp only [Context.enterChild, List.head?_cons, Option.bind_some, hv]
    exact Visited.not_native_of_isFragment hfragment n
  rw [hplaced] at hvisit
  have houter : c₁.outer = c.frame :: c.outer := hvisit.outer
  have hnumber := stocked_reference c₁
  have htemplate : (reference c₁).2.frame.template = n.markup := hnumber.template.trans hvisit.template
  rcases registerTemplate_cases (reference c₁).2 with ⟨-, hdropped⟩ | ⟨k, pieces, hrun, -, hk, -⟩
  · rcases hdropped with hdropped | hempty
    · rw [hnumber.discarding, hvisit.discarding] at hdropped
      exact absurd (h.keeps.symm.trans hdropped) (by simp)
    · exact absurd (htemplate.symm.trans hempty) hfilled
  · obtain ⟨roots, hadd⟩ := addToBlock_eq c₁
    rw [hrun] at hadd
    refine ⟨k, { (reference c₁).2.frame.plan with template := some k }, ?_⟩
    have htake : afterChild (lowerNode .none depth) true (.node path n) index c =
        { (addToBlock c₁).2 with frame := c.frame, outer := c.outer }.adopt (addToBlock c₁).2 true := by
      rw [afterChild, takeChild_eq houter]
      rfl
    rw [htake, hadd]
    exact ⟨rfl, rfl, htemplate ▸ hk⟩

end Lower

/-! ## Results -/

/-- Pieces of markup are never added twice, changed or moved, whatever is done to the state: an index that
was once given for some markup denotes it for ever, and markup that is there is not added again. At the end
of the walk no piece is empty, and all indices in the plan are those of a piece. Static nodes that differ only
in where they stand become the same piece when they are top nodes of blocks, unless the markup of the block is
dropped. -/
theorem markup_table_shared (o : LoweringOptions) (t : Template) :
    (∀ c : Context, Reaches (Context.ofTemplate o t) c → c.templates.Nodup) ∧
    (∀ c c' : Context, Reaches c c' → c.templates <+: c'.templates) ∧
    (∀ (content : String) (c c' : Context), Reaches (Lower.pushTemplate content c).2 c' →
      c'.templates[(Lower.pushTemplate content c).1]? = some content) ∧
    (∀ (c c' : Context) (k : Nat), (Lower.registerTemplate c).1 = some k →
      Reaches (Lower.registerTemplate c).2 c' → c'.templates[k]? = some c.frame.template) ∧
    (∀ (content : String) (c : Context), content ∈ c.templates →
      (Lower.pushTemplate content c).2 = c ∧ c.templates[(Lower.pushTemplate content c).1]? = some content) ∧
    (t.lower o .none).finish.Indexed ∧
    ∀ (n m : Node), n.isStatic = true → m.isStatic = true → n.unlocated = m.unlocated → n.markup ≠ "" →
      ∀ (depth : Nat), n.height ≤ depth → m.height ≤ depth → ∀ (p q : Path) (i j : Nat) (c d : Context),
      Lower.AtTop p c → Lower.AtTop q d →
      let c' := Lower.afterChild (Lower.lowerNode .none depth) true (.node p n) i c
      let d' := Lower.afterChild (Lower.lowerNode .none depth) true (.node q m) j d
      ∀ pieces : List String, pieces.Nodup → c'.templates <+: pieces → d'.templates <+: pieces →
        ∃ k plan plan', c'.frame.plan.children = c.frame.plan.children ++ [plan] ∧
          d'.frame.plan.children = d.frame.plan.children ++ [plan'] ∧
          plan.template = some k ∧ plan'.template = some k ∧ pieces[k]? = some n.markup := by
  refine ⟨fun c h => h.nodup .nil, fun c c' h => h.kept, fun content c c' h => ?_,
    fun c c' k hk h => ?_, fun content c hmem => ?_, indexed_finish o t, ?_⟩
  · obtain ⟨pieces, hstate, -, hk⟩ := Lower.pushTemplate_spec content c
    exact h.denotes (by rw [hstate]; exact hk)
  · rcases Lower.registerTemplate_cases c with ⟨hrun, -⟩ | ⟨k', pieces, hrun, -, hk', -⟩
    · rw [hrun] at hk
      cases hk
    · rw [hrun] at hk h
      obtain rfl : k' = k := by simpa using hk
      exact h.denotes hk'
  · obtain ⟨pieces, hstate, -, hk⟩ := Lower.pushTemplate_spec content c
    have hsame := Lower.pushTemplate_of_mem hmem
    have htable : c.templates = pieces := congrArg Context.templates (hsame.symm.trans hstate)
    exact ⟨hsame, htable ▸ hk⟩
  · intro n m hn hm heq hfilled depth hdn hdm p q i j c d hc hd c' d' pieces hdistinct hle hle'
    have hmarkup := Node.markup_eq_of_unlocated hn hm heq
    obtain ⟨k, plan, hplan, htemplate, hk⟩ := Lower.piece_of_static hn hfilled hdn hc i
    obtain ⟨k', plan', hplan', htemplate', hk'⟩ := Lower.piece_of_static hm (hmarkup ▸ hfilled) hdm hd j
    have hkeeps : ∀ {table : List String} {k : Nat}, table <+: pieces → table[k]? = some n.markup →
        pieces[k]? = some n.markup := by
      rintro table k ⟨more, rfl⟩ hk
      rw [List.getElem?_append_left (List.getElem?_eq_some_iff.mp hk).1]
      exact hk
    have hfirst := hkeeps hle hk
    have hsecond := hkeeps hle' (hmarkup ▸ hk')
    obtain rfl : k = k' := (List.getElem?_inj (List.getElem?_eq_some_iff.mp hfirst).1 hdistinct).mp
      (hfirst.trans hsecond.symm)
    exact ⟨k, plan, plan', hplan, hplan', htemplate, htemplate', hfirst⟩

/-- Two elements at different places that are otherwise the same are one piece of markup. -/
theorem markup_table_shared_siblings :
    let later : Location := ⟨⟨8, 1, 9⟩, ⟨16, 1, 17⟩, "<p>a</p>"⟩
    let n : Node := .element ⟨"p", .element, [], false, .stub⟩ [.text "a" .stub]
    let m : Node := .element ⟨"p", .element, [], false, later⟩ [.text "a" later]
    let o : LoweringOptions := ⟨true, fun _ => false⟩
    let t : Template := ⟨"", [n, m], .stub⟩
    let c := Context.ofTemplate o t
    let d := Lower.afterChild (Lower.lowerNode .none 2) true (.node [0] n) 0 c
    let d' := Lower.afterChild (Lower.lowerNode .none 2) true (.node [1] m) 1 d
    n.isStatic = true ∧ m.isStatic = true ∧ Lower.AtTop [0] c ∧ Lower.AtTop [1] d ∧
      ∃ k plan plan', d.frame.plan.children = c.frame.plan.children ++ [plan] ∧
        d'.frame.plan.children = d.frame.plan.children ++ [plan'] ∧
        plan.template = some k ∧ plan'.template = some k ∧ ["<p>a</p>"][k]? = some n.markup := by
  intro later n m o t c d d'
  have hn : n.isStatic = true := by decide +kernel
  have hm : m.isStatic = true := by decide +kernel
  have hseen : d.seen = [] := by decide +kernel
  have hc : Lower.AtTop [0] c := ⟨rfl, ⟨_, rfl, rfl⟩, by simp [Lower.Unmarked, c, Context.ofTemplate], rfl⟩
  have hd : Lower.AtTop [1] d :=
    ⟨by decide +kernel, ⟨.root t, rfl, rfl⟩, by simp [Lower.Unmarked, hseen],
      by decide +kernel⟩
  have hpieces : d.templates <+: ["<p>a</p>"] := by decide +kernel
  have hpieces' : d'.templates <+: ["<p>a</p>"] := by decide +kernel
  have hsame : n.unlocated = m.unlocated := rfl
  have hfilled : n.markup ≠ "" := by decide +kernel
  obtain ⟨-, -, -, -, -, -, hshared⟩ := markup_table_shared o t
  have hnheight : n.height ≤ 2 := by decide +kernel
  have hmheight : m.height ≤ 2 := by decide +kernel
  obtain ⟨k, plan, plan', hplan, hplan', hk, hk', hpiece⟩ := hshared n m hn hm hsame hfilled 2 hnheight
    hmheight [0] [1] 0 1 c d hc hd ["<p>a</p>"] (by simp) hpieces hpieces'
  have hd₀ : Lower.afterChild (Lower.lowerNode .none 2) true (.node [0] n) 0 c = d := rfl
  have hd₁ : Lower.afterChild (Lower.lowerNode .none 2) true (.node [1] m) 1 d = d' := rfl
  rw [hd₀] at hplan
  rw [hd₁] at hplan'
  exact ⟨hn, hm, hc, hd, k, plan, plan', hplan, hplan', hk, hk', hpiece⟩

/-- The top nodes of a block whose markup is dropped have no piece, though their markup is there. -/
theorem dropped_markup_not_shared :
    let item := fun name arg value => TagItem.attribute ⟨name, arg, .stub, value, .stub⟩
    let p : Node := .element ⟨"p", .element, [], false, .stub⟩ [.text "a" .stub]
    let slot : Node := .element ⟨"template", .template,
      [item "v-slot" (some "foo") none, item "v-else" none none], false, .stub⟩ [.text "b" .stub]
    let component : Node := .element ⟨"Comp", .component,
      [item "v-slot" none (some ⟨"x", false, .stub⟩)], false, .stub⟩ [slot, p]
    let plan := (Template.lower ⟨true, fun _ => false⟩ .none ⟨"", [p, component], .stub⟩).finish
    p.isStatic = true ∧ p.markup = "<p>a</p>" ∧ plan.templates = ["<p>a</p>", "b"] ∧
      plan.block.plan.children.map NodePlan.template = [some 0, none] ∧
      plan.block.inner.map (fun b => b.plan.children.map fun n => (n.id, n.template)) =
        [[(some 2, none), (some 3, none)]] := by
  decide +kernel

end JsxTemplate
