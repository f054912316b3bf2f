import JsxTemplate.Proofs.Lowering.Slots

/-!
# Markup that is all that is rendered

A piece of markup is flagged when a block gets an element that is all that is rendered. Between two visits no
piece is flagged (`Unnoted`), and a visit leaves a node marked only if it is such an element
(`isRootMarkup_of_flag`). The table holds every markup once, so other elements may be made from a flagged
piece too.
-/

namespace JsxTemplate

/-- Whether pieces of markup were only added, and none was flagged. -/
structure Unnoted (c c' : Context) : Prop where
  roots : c'.rootTemplates = c.rootTemplates
  kept : c.templates <+: c'.templates

/-- Whether, besides, the node is marked as all that is rendered only if it was. -/
structure Discreet (c c' : Context) : Prop extends Unnoted c c' where
  flag : c'.frame.rootTemplate = c.frame.rootTemplate

/-- Whether some markup is that of an element that is all that is rendered: the walk comes to the element in
the state `c`, nothing else is rendered there, and it leaves the element with this markup. -/
def Template.IsRootMarkup (o : LoweringOptions) (t : Template) (markup : String) : Prop :=
  ∃ depth c path tag children, Arrives o t (depth + 1) c ∧
    (Lower.approach c).2.frame.node = some (.node path (.element tag children)) ∧ tag.type = .element ∧
    (Lower.isSingleRoot (Lower.approach c).2).1 = true ∧
    (Lower.lowerNode .none (depth + 1) c).2.frame.template = markup

/-- Whether all flagged pieces are the markup of elements that are all that is rendered. -/
def RootsNoted (o : LoweringOptions) (t : Template) (c : Context) : Prop :=
  ∀ k ∈ c.rootTemplates, ∃ markup, c.templates[k]? = some markup ∧ t.IsRootMarkup o markup

variable {c c' c'' : Context} {d : Deed} {o : LoweringOptions} {t : Template} {depth : Nat}

theorem Unnoted.refl (c : Context) : Unnoted c c := ⟨rfl, List.prefix_refl _⟩

theorem Unnoted.trans (h : Unnoted c c') (h' : Unnoted c' c'') : Unnoted c c'' :=
  ⟨h'.roots.trans h.roots, h.kept.trans h'.kept⟩

theorem Discreet.refl (c : Context) : Discreet c c := ⟨.refl c, rfl⟩

theorem Discreet.trans (h : Discreet c c') (h' : Discreet c' c'') : Discreet c c'' :=
  ⟨h.toUnnoted.trans h'.toUnnoted, h'.flag.trans h.flag⟩

theorem RootsNoted.of_unnoted (hnoted : RootsNoted o t c) (h : Unnoted c c') : RootsNoted o t c' := by
  intro k hk
  obtain ⟨markup, hmarkup, hroot⟩ := hnoted k (h.roots ▸ hk)
  obtain ⟨pieces, hpieces⟩ := h.kept
  have hlt := (List.getElem?_eq_some_iff.mp hmarkup).1
  exact ⟨markup, by rw [← hpieces, List.getElem?_append_left hlt, hmarkup], hroot⟩

theorem Lower.discreet_exitBlock (c : Context) : Discreet c (exitBlock c).2 := by
  rcases hsaved : c.saved with _ | ⟨s, saved⟩
  · obtain ⟨template, pieces, hpieces, heq⟩ := exitBlock_of_nil hsaved
    rw [heq]
    exact ⟨⟨rfl, hpieces⟩, rfl⟩
  · obtain ⟨template, pieces, hpieces, heq⟩ := exitBlock_of_saved hsaved
    rw [heq]
    exact ⟨⟨rfl, hpieces⟩, rfl⟩

theorem Deed.Changes.unnoted (h : Changes c d c') (hd : d ≠ .top) :
    Unnoted c c' ∧ (d ≠ .root → c'.frame.rootTemplate = c.frame.rootTemplate) := by
  cases h with
  | work _ h | inset _ _ h => cases h <;> exact ⟨⟨rfl, List.prefix_refl _⟩, fun _ => rfl⟩
  | piece hpieces =>
    refine ⟨⟨rfl, ?_⟩, fun _ => rfl⟩
    rcases hpieces with rfl | ⟨s, -, -, rfl⟩
    · exact List.prefix_refl _
    · exact List.prefix_append _ _
  | leave => exact ⟨(Lower.discreet_exitBlock c).toUnnoted, fun _ => (Lower.discreet_exitBlock c).flag⟩
  | attach | give =>
    rw [Lower.modifyParent_run]
    exact ⟨⟨rfl, List.prefix_refl _⟩, fun _ => rfl⟩
  | top => exact absurd rfl hd
  | root => exact ⟨⟨rfl, List.prefix_refl _⟩, fun h => absurd rfl h⟩
  | _ => exact ⟨⟨rfl, List.prefix_refl _⟩, fun _ => rfl⟩

namespace Lower

theorem Does.unnoted {α : Type} {deeds : List Deed} {x : Lower α} (h : Does deeds x)
    (hd : deeds.contains .top = false) (c : Context) : Unnoted c (x c).2 := by
  refine h.related Unnoted.refl Unnoted.trans (fun d hmem _ _ hc => (hc.unnoted ?_).1) c
  rintro rfl
  simp [hmem] at hd

theorem Does.discreet {α : Type} {deeds : List Deed} {x : Lower α} (h : Does deeds x)
    (hd : deeds.contains .top = false) (hd' : deeds.contains .root = false) (c : Context) :
    Discreet c (x c).2 := by
  refine ⟨h.unnoted hd c, h.same (f := fun c => c.frame.rootTemplate) (fun d hmem _ _ hc => ?_) c⟩
  refine (hc.unnoted ?_).2 ?_
  · rintro rfl
    simp [hmem] at hd
  · rintro rfl
    simp [hmem] at hd'

/-! ## What is done at a node -/

theorem discreet_runExits {exits : List Exit}
    (h : ∀ exit ∈ exits, exit.isOwn = true ∧ exit.isElement = false) (c : Context) :
    Discreet c (runExits .none exits c).2 := by
  refine related_runExits .refl .trans (fun exit he => ?_) c
  obtain ⟨hown, hother⟩ := h exit he
  have hdeeds : exit.deeds.contains .top = false ∧ exit.deeds.contains .root = false := by
    cases exit with
    | element => cases hother
    | _ => exact ⟨rfl, rfl⟩
  exact (does_runExit hown).discreet hdeeds.1 hdeeds.2

theorem isSingleRootIn_congr {outer outer' : List Frame}
    (h : outer'.map Frame.node = outer.map Frame.node) : isSingleRootIn outer' = isSingleRootIn outer := by
  induction outer generalizing outer' with
  | nil => rw [List.map_eq_nil_iff.mp h]
  | cons p ps ih =>
    obtain ⟨q, qs, rfl, hnode, hrest⟩ := List.map_eq_cons_iff.mp h
    have hempty : qs.isEmpty = ps.isEmpty := by
      rw [← List.isEmpty_map (f := Frame.node), hrest, List.isEmpty_map]
    rw [isSingleRootIn, isSingleRootIn, hnode, hempty, ih hrest]

theorem isSingleRoot_congr (h : c'.stacks = c.stacks) : (isSingleRoot c').1 = (isSingleRoot c).1 := by
  show (c'.loopDepth == 0 && isSingleRootIn c'.outer) = (c.loopDepth == 0 && isSingleRootIn c.outer)
  have hdepth : c'.loopDepth = c.loopDepth := congrArg Stacks.loopDepth h
  rw [hdepth, isSingleRootIn_congr (congrArg Stacks.nodes h)]

theorem flag_lowerElement (tag : Tag) (properties : Properties) (singleRoot : Bool) (cursor : Cursor)
    (c : Context) : (lowerElement tag properties singleRoot cursor c).2.frame.rootTemplate =
      (c.frame.rootTemplate || singleRoot) := by
  let r := attributesOf tag properties cursor c
  let r' := takeChildTemplates r.2
  have hplace := (does_placeElement tag (elementMarkup_ne_empty tag r.1 r'.1)).discreet rfl rfl
    { r'.2 with frame.rootTemplate := r'.2.frame.rootTemplate || singleRoot }
  have hbefore := ((does_attributesOf tag properties cursor).discreet rfl rfl c).trans
    (does_takeChildTemplates.discreet rfl rfl r.2)
  exact hplace.flag.trans (congrArg (· || singleRoot) hbefore.flag)

/-- An element is marked only if it is all that is rendered, and no component. -/
theorem flag_exitElement {cursor : Cursor} (hflag : c.frame.rootTemplate = false)
    (h : (exitElement .none cursor c).2.frame.rootTemplate = true) :
    ∃ path tag children, c.frame.node = some (.node path (.element tag children)) ∧
      tag.type = .element ∧ (isSingleRoot c).1 = true := by
  have hunmarked : ∀ {c'}, Discreet c c' → c'.frame.rootTemplate ≠ true := fun hc => by
    rw [hc.flag, hflag]
    decide
  by_cases hnode : ∃ path tag children, c.frame.node = some (.node path (.element tag children)) ∧
      tag.type ≠ .template
  · obtain ⟨path, tag, children, hnode, htype⟩ := hnode
    let r := propertiesOf .none tag children cursor (note (.gathered path) c).2
    have hrun : (exitElement .none cursor c).2 =
        ((if tag.isComponent then lowerComponent tag r.1.1 (isSingleRoot r.2).1
          else lowerElement tag r.1.1 (isSingleRoot r.2).1 r.1.2) r.2).2 := by
      rw [exitElement, run_bind, node_of_some hnode]
      simp only [beq_eq_false_iff_ne.mpr htype, Bool.false_eq_true, if_false]
      rfl
    have hnote : Does [.gather] (note (.gathered path)) :=
      .ofChange (uniform_note _) fun _ => Or.inr (.gather _)
    have hdoes : Does (.gather :: propertyDeeds) (do
        note (.gathered path)
        propertiesOf .none tag children cursor) :=
      hnote.bind rfl fun _ => (does_propertiesOf tag children cursor).mono rfl
    have hproperties : Discreet c r.2 := hdoes.discreet rfl rfl c
    have hkept : r.2.stacks = c.stacks := (hdoes.keeping rfl c).1
    rw [hrun, run_ite] at h
    split at h
    · exact absurd h (hunmarked (hproperties.trans ((does_lowerComponent _ _ _).discreet rfl rfl _)))
    · next hcomponent =>
      rw [flag_lowerElement, hproperties.flag, hflag, Bool.false_or, isSingleRoot_congr hkept] at h
      refine ⟨path, tag, children, hnode, ?_, h⟩
      rw [Tag.isComponent] at hcomponent
      cases htag : tag.type <;> simp_all
  · refine absurd h (hunmarked ?_)
    rw [exitElement_of_other fun path tag children hv => by_contra fun htype =>
      hnode ⟨path, tag, children, hv, htype⟩]
    exact .refl c

/-! ## What a visit marks -/

theorem flag_textStep (depth : Nat) (hc : Collecting c) :
    (textStep (lowerNode .none depth) c).2.frame.rootTemplate = c.frame.rootTemplate := by
  have hprepare := does_prepareText.discreet rfl rfl c
  have hnested := (frame_nestedBlocks (around_lowerNode depth) (balanced_lowerNode depth)
    (fun r hr => tag?_of_mem_prepareText (c := c) hr) ((does_prepareText.grows c).collecting hc)).1
  rw [textStep]
  refine ((does_finishText _ _).discreet rfl rfl _).flag.trans ?_
  exact (congrArg Frame.rootTemplate hnested).trans hprepare.flag

theorem flag_childrenStep (depth : Nat) (hc : Collecting c) (hnode : c.frame.node.isSome = true) :
    (childrenStep (lowerNode .none depth) c).2.frame.rootTemplate = c.frame.rootTemplate := by
  obtain ⟨v, hv⟩ := Option.isSome_iff_exists.mp hnode
  obtain ⟨runs, heq, -⟩ := childrenStep_eq (lowerNode .none depth) hv
  rw [heq, ((does_insertRuns runs).discreet rfl rfl _).flag]
  exact (around_lowerChildren (around_lowerNode depth) (balanced_lowerNode depth) _ _ _ hc).2.2

theorem flag_of_arrives (h : Arrives o t depth c) : c.frame.rootTemplate = false := by
  cases h <;> rfl

/-- The visit of a node marks it only if it is an element that is all that is rendered. -/
theorem isRootMarkup_of_flag (ho : o.collectErrors = true) (h : Arrives o t depth c)
    (hmarked : (lowerNode .none depth c).2.frame.rootTemplate = true) :
    t.IsRootMarkup o (lowerNode .none depth c).2.frame.template := by
  have hflag := flag_of_arrives h
  cases depth with
  | zero => cases hflag.symm.trans hmarked
  | succ depth =>
    have harr := arrived_of_arrives ho h
    obtain ⟨v, -, hat⟩ := atChildren harr
    obtain ⟨_, hinside⟩ := exists_inside harr.collecting harr.node depth
    obtain rfl := hinside.children
    obtain ⟨cursor, others, hleft, hothers⟩ := approach_exits c
    let c₂ := (textStep (lowerNode .none depth) (approach c).2).2
    let c₅ := (runExits .none (slotStep c₂).1.reverse
      (childrenStep (lowerNode .none depth) (beforeChildren (lowerNode .none depth) c)).2).2
    have hc₁ := (nears_approach c).grows.collecting harr.collecting
    have hc₂ : Collecting c₂ := hinside.grows.1.collecting harr.collecting
    have htext := fixed_textStep (balanced_lowerNode depth)
    have hresumed : Resumed c₂ c₅ := resumed_slots (balanced_lowerNode depth) hc₂
    -- Before the element is left, its flag is the one it had when the walk came to it.
    have hflag₅ : c₅.frame.rootTemplate = false := by
      refine (discreet_runExits (slotStep_exits c₂) _).flag.trans ?_
      refine (flag_childrenStep depth hat.collecting (by rw [hat.node.1]; rfl)).trans ?_
      refine (does_slotStep.discreet rfl rfl c₂).flag.trans ?_
      exact (flag_textStep depth hc₁).trans ((does_approach.discreet rfl rfl c).flag.trans hflag)
    have hnode₅ := hresumed.node.trans (htext.node _ hc₂.goesOn)
    have hstacks₅ := hresumed.kept.trans (htext.kept _ hc₂.goesOn)
    have hresult := hinside.exits
    have hgoes : ¬ c₅.aborted = true := by simp [(hresumed.grows.collecting hc₂).goesOn]
    rw [hleft, runExits_append, runExits_cons, if_neg hgoes] at hresult
    have hmarked₅ := hmarked
    rw [hresult, (discreet_runExits hothers _).flag] at hmarked₅
    obtain ⟨path, tag, children, hnode, htype, hsingle⟩ := flag_exitElement hflag₅ hmarked₅
    exact ⟨depth, c, path, tag, children, h, hnode₅ ▸ hnode, htype, isSingleRoot_congr hstacks₅ ▸ hsingle, rfl⟩

/-! ## What the walk flags -/

theorem nestedBlocks_append {visit : Lower Unit} (hbalanced : Balanced visit) (hc : Collecting c)
    (roots roots' : List Visited) : (nestedBlocks visit (roots ++ roots') c).2 =
      (nestedBlocks visit roots' (nestedBlocks visit roots c).2).2 := by
  induction roots generalizing c with
  | nil => rfl
  | cons r roots ih =>
    rw [List.cons_append, nestedBlocks_collecting hbalanced hc, nestedBlocks_collecting hbalanced hc]
    exact ih ((resumed_afterNested hbalanced hc r).grows.collecting hc)

theorem unnoted_popFrame (c : Context) : Unnoted c (popFrame c).2 := by
  rw [popFrame_run]
  exact ⟨rfl, List.prefix_refl _⟩

theorem addToBlock_roots (c : Context) :
    (addToBlock c).2.rootTemplates =
      let r := registerTemplate (reference c).2
      if r.2.frame.rootTemplate then r.2.rootTemplates ++ r.1.toList else r.2.rootTemplates := by
  simp only [addToBlock, giveBack, noteRootTemplate, run_bind, run_modify]
  split <;> split <;> rfl

/-- When a node is added to the block, only its own piece can be flagged, and only if the node is marked. -/
theorem noted_addToBlock (hnoted : RootsNoted o t c)
    (hmarked : c.frame.rootTemplate = true → t.IsRootMarkup o c.frame.template) :
    RootsNoted o t (addToBlock c).2 := by
  have hreference : Discreet c (reference c).2 ∧ (reference c).2.frame.template = c.frame.template := by
    refine ⟨does_reference.discreet rfl rfl c, ?_⟩
    obtain ⟨_, _, _, h⟩ := reference_state c
    rw [h]
  rw [← hreference.1.flag, ← hreference.2] at hmarked
  have hnoted := hnoted.of_unnoted hreference.1.toUnnoted
  obtain ⟨roots, heq⟩ := addToBlock_eq c
  have hroots := addToBlock_roots c
  have htemplates : (addToBlock c).2.templates = (registerTemplate (reference c).2).2.templates := by
    rw [heq]
  generalize (reference c).2 = c₁ at hmarked hnoted hroots htemplates
  rcases registerTemplate_cases c₁ with ⟨hr, -⟩ | ⟨i, pieces, hr, hle, hi, -⟩
  · rw [hr] at hroots htemplates
    refine hnoted.of_unnoted ⟨?_, htemplates ▸ List.prefix_refl _⟩
    simpa using hroots
  · rw [hr] at hroots htemplates
    have hkept : RootsNoted o t { c₁ with templates := pieces } := hnoted.of_unnoted ⟨rfl, hle⟩
    intro k hk
    rw [htemplates]
    rw [hroots] at hk
    dsimp only at hk
    split at hk
    · next hflag =>
      rcases List.mem_append.mp hk with hk | hk
      · exact hkept k hk
      · obtain rfl := List.mem_singleton.mp hk
        exact ⟨_, hi, hmarked hflag⟩
    · exact hkept k hk

theorem noted_takeChild {isFragment : Bool} {p : Frame} {ps : List Frame} (hp : c.outer = p :: ps)
    (hnoted : RootsNoted o t c)
    (hmarked : c.frame.rootTemplate = true → t.IsRootMarkup o c.frame.template) :
    RootsNoted o t (takeChild isFragment c).2 := by
  rw [takeChild_eq hp]
  cases isFragment with
  | false => exact hnoted.of_unnoted ⟨rfl, List.prefix_refl _⟩
  | true => exact (noted_addToBlock hnoted hmarked).of_unnoted ⟨rfl, List.prefix_refl _⟩

section

variable (ho : o.collectErrors = true)
  (hvisit : ∀ {c}, Arrives o t depth c → RootsNoted o t c → RootsNoted o t (lowerNode .none depth c).2)
  (h : Arrives o t (depth + 1) c)

include ho hvisit h

theorem noted_nestedBlocks (hnoted : RootsNoted o t (prepareText (approach c).2).2) (k : Nat) :
    RootsNoted o t (nestedBlocks (lowerNode .none depth)
      ((prepareText (approach c).2).1.roots.take k) (prepareText (approach c).2).2).2 := by
  have hbalanced := balanced_lowerNode depth
  have hc := (does_prepareText.grows _).collecting
    ((nears_approach c).grows.collecting (arrived_of_arrives ho h).collecting)
  induction k with
  | zero => exact hnoted
  | succ k ih =>
    rw [List.take_add_one]
    cases hr : (prepareText (approach c).2).1.roots[k]? with
    | none => rwa [Option.toList_none, List.append_nil]
    | some r =>
      have hc' := ((fixed_nestedBlocks hbalanced
        ((prepareText (approach c).2).1.roots.take k)).grows _).collecting hc
      rw [Option.toList_some, nestedBlocks_append hbalanced hc, nestedBlocks_collecting hbalanced hc']
      have hroot := hvisit (.root h hr) (ih.of_unnoted ⟨rfl, List.prefix_refl _⟩)
      exact (hroot.of_unnoted (discreet_exitBlock _).toUnnoted).of_unnoted (unnoted_popFrame _)

theorem noted_textStep (hnoted : RootsNoted o t c) :
    RootsNoted o t (textStep (lowerNode .none depth) (approach c).2).2 := by
  have hprepared := (hnoted.of_unnoted (does_approach.unnoted rfl c)).of_unnoted
    (does_prepareText.unnoted rfl _)
  have hnested := noted_nestedBlocks ho hvisit h hprepared (prepareText (approach c).2).1.roots.length
  rw [List.take_length] at hnested
  rw [textStep]
  exact hnested.of_unnoted ((does_finishText _ _).unnoted rfl _)

theorem noted_lowerChildren {v : Visited}
    (hv : (beforeChildren (lowerNode .none depth) c).frame.node = some v)
    (hnoted : RootsNoted o t (beforeChildren (lowerNode .none depth) c)) (k : Nat) :
    RootsNoted o t (lowerChildren (lowerNode .none depth) v.isFragment 0 (v.children.take k)
      (beforeChildren (lowerNode .none depth) c)).2 := by
  have hbalanced := balanced_lowerNode depth
  obtain ⟨-, hat⟩ := atChildren_of_node (arrived_of_arrives ho h) hv
  induction k with
  | zero => exact hnoted
  | succ k ih =>
    cases hchild : v.children[k]? with
    | none => rwa [List.take_add_one, hchild, Option.toList_none, List.append_nil]
    | some child =>
      rw [lowerChildren_take_succ hbalanced _ hat.collecting hchild]
      have harrives := Arrives.child h hv hchild
      have hvisited := hvisit harrives (ih.of_unnoted ⟨rfl, List.prefix_refl _⟩)
      obtain ⟨p, hp, -⟩ := ((around_lowerNode depth _ child (arrived_of_arrives ho harrives).collecting
        rfl).1 : AroundChanged (_ :: _) _).of_cons
      exact noted_takeChild hp hvisited (isRootMarkup_of_flag ho harrives)

end

theorem noted_lowerNode (ho : o.collectErrors = true) (h : Arrives o t depth c)
    (hnoted : RootsNoted o t c) : RootsNoted o t (lowerNode .none depth c).2 := by
  induction depth generalizing c with
  | zero => exact hnoted
  | succ depth ih =>
    have harr := arrived_of_arrives ho h
    obtain ⟨v, -, hat⟩ := atChildren harr
    obtain ⟨c', hinside⟩ := exists_inside harr.collecting harr.node depth
    obtain ⟨cursor, others, hleft, hothers⟩ := approach_exits c
    have hbefore := (noted_textStep ho ih h hnoted).of_unnoted (does_slotStep.unnoted rfl _)
    have hchildren := noted_lowerChildren ho ih h hat.node.1 hbefore v.children.length
    rw [List.take_length] at hchildren
    obtain ⟨runs, heq, -⟩ := childrenStep_eq (lowerNode .none depth) hat.node.1
    have hinner : RootsNoted o t c' :=
      (hinside.children.trans heq) ▸ hchildren.of_unnoted ((does_insertRuns runs).unnoted rfl _)
    rw [hinside.exits, hleft, runExits_append, runExits_cons]
    have hslots := hinner.of_unnoted (discreet_runExits
      (slotStep_exits (textStep (lowerNode .none depth) (approach c).2).2) c').toUnnoted
    split
    · exact hslots
    · exact (hslots.of_unnoted ((does_exitElement cursor).unnoted rfl _)).of_unnoted
        (discreet_runExits hothers _).toUnnoted

end Lower

/-- A piece of markup is flagged only if it is the markup of an element that is all that is rendered. -/
theorem flagged_piece_is_root_markup (o : LoweringOptions) (ho : o.collectErrors = true) (t : Template) :
    let plan := (t.lower o .none).finish
    ∀ i, plan.rootTemplates.contains i = true →
      ∃ markup, plan.templates[i]? = some markup ∧ t.IsRootMarkup o markup := by
  intro plan i hi
  exact Lower.noted_lowerNode ho .start nofun i (List.contains_iff_mem.mp hi)

/-- An element alone in a template has the markup that is flagged. -/
theorem flagged_piece_is_root_markup_of_one :
    let o : LoweringOptions := ⟨true, fun _ => false⟩
    let t : Template := ⟨"", [.element ⟨"div", .element, [], false, .stub⟩ [.text "a" .stub]], .stub⟩
    let plan := (t.lower o .none).finish
    plan.rootTemplates.contains 0 = true ∧
      ∃ markup, plan.templates[0]? = some markup ∧ t.IsRootMarkup o markup := by
  intro o t plan
  have hflagged : plan.rootTemplates.contains 0 = true := by decide +kernel
  exact ⟨hflagged, flagged_piece_is_root_markup o rfl t 0 hflagged⟩

/-- An element in a slot that has the same markup is made from the flagged piece too. -/
theorem flagged_piece_in_slot :
    let inner : Node := .element ⟨"div", .element, [], true, .stub⟩ []
    let t : Template := ⟨"", [.element ⟨"div", .element, [], false, .stub⟩
      [.element ⟨"Comp", .component, [], false, .stub⟩ [inner]]], .stub⟩
    let plan := (t.lower ⟨true, fun _ => false⟩ .none).finish
    plan.templates = ["<div></div>"] ∧ plan.rootTemplates = [0] ∧
      plan.block.census.flatMap (fun n => match n.operation with
        | some (.component use _) => (use.slots.flatMap SlotGroup.bodies).flatMap fun body =>
          body.block.census.filterMap NodePlan.template
        | _ => []) = [0] := by
  decide +kernel

end JsxTemplate
