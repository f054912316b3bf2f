import JsxTemplate.Proofs.Lowering.Balance
import JsxTemplate.Proofs.Lowering.Cost
import JsxTemplate.Proofs.Lowering.Visit

/-!
# The stages of a visit

If mistakes are collected, the walk takes all steps at a node, and then does all that is left to do
(`lowerNode_stages`). The steps for conditions and loops either leave the node alone, or enter a block and
put a wrapper in the place of the node (`conditionStep_cases`, `loopStep_cases`). The step for texts first
decides what is to be done, then lowers the elements inside expressions, and then does it (`textStep`).
-/

namespace JsxTemplate

variable {c c' : Context}

/-- Whether mistakes are collected, and the walk goes on. -/
structure Collecting (c : Context) : Prop where
  collects : c.options.collectErrors = true
  goesOn : c.aborted = false

theorem Grows.collecting (h : Grows c c') (hc : Collecting c) : Collecting c' :=
  ⟨h.options ▸ hc.collects, h.collects hc.collects hc.goesOn⟩

/-! ## The elements inside expressions -/

/-- The nodes whose inside is visited together with the current node: the node itself, or, if it is an
expression that is not marked, the texts and expressions from it on. -/
def Context.reach (c : Context) : List Visited :=
  match c.frame.node with
  | none => []
  | some v =>
    if v.isTextLike then
      if v.isExpression && !c.seen.contains (v.path, Lower.textPurpose) then
        ((c.outer.head?.bind Frame.node).elim [] Visited.children).drop c.frame.index
          |>.takeWhile Visited.isTextLike
      else []
    else [v]

/-- The texts and expressions that are marked when the current node is visited: if it is an expression that
is not marked, those of its group. -/
def Context.group (c : Context) : List Visited :=
  match c.frame.node with
  | none => []
  | some v =>
    if v.isExpression && !c.seen.contains (v.path, Lower.textPurpose) then
      Lower.groupAt ((c.outer.head?.bind Frame.node).elim [] Visited.children) c.frame.index
    else []

theorem Visited.exists_of_isText {v : Visited} (h : v.isText = true) :
    ∃ path content loc, v = .node path (.text content loc) := by
  match v, h with
  | .node path (.text content loc), _ => exact ⟨path, content, loc, rfl⟩

namespace Lower

variable {v : Visited}

theorem steady_finishText (work : TextWork) (blocks : List NestedBlock) :
    Steady (finishText work blocks) := (does_finishText work blocks).steady rfl

theorem mem_of_mem_groupAt {siblings : List Visited} {index : Nat} (h : v ∈ groupAt siblings index) :
    v ∈ siblings := by
  rcases List.mem_append.mp h with h | h
  · split at h
    · simp at h
    · exact List.mem_of_getElem? (Option.mem_toList.mp (List.mem_filter.mp h).1)
  · exact List.mem_of_mem_drop (List.takeWhile_subset _ h)

theorem isTextLike_of_isExpression (h : v.isExpression = true) : v.isTextLike = true := by
  match v, h with
  | .node _ (.expression _ _ _), _ => rfl

theorem nestedRoots_groupAt (siblings : List Visited) (index : Nat) :
    nestedRoots (groupAt siblings index) =
      nestedRoots ((siblings.drop index).takeWhile Visited.isTextLike) := by
  have hbefore : ∀ vs : List Visited, nestedRoots (vs.filter Visited.isText) = [] := by
    intro vs
    rw [nestedRoots, List.flatMap_eq_nil_iff]
    intro v hv
    have htext := (List.mem_filter.mp hv).2
    obtain ⟨_, _, _, rfl⟩ := Visited.exists_of_isText htext
    rfl
  rw [groupAt, nestedRoots, List.flatMap_append]
  split
  · rfl
  · rw [show ((siblings[index - 1]?).toList.filter Visited.isText).flatMap _ = [] from hbefore _]
    rfl

theorem seen_groupValues (nodes : List Visited) (c : Context) :
    ∀ s ∈ nodes, (s.path, textPurpose) ∈ (groupValues nodes c).2.seen := by
  obtain ⟨seen, heq, hmem, -⟩ := groupValues_eq nodes c
  rw [heq]
  exact hmem

theorem prepareChildren_roots (v : Visited) (c : Context) :
    (prepareChildren v c).1.roots = [] ∨
      (prepareChildren v c).1.roots = nestedRoots v.children ∧
        ∀ s ∈ v.children, s.isTextLike = true ∧ (s.path, textPurpose) ∈ (prepareChildren v c).2.seen := by
  unfold prepareChildren
  dsimp only
  split
  · split
    · next hall =>
      have hall : ∀ s ∈ v.children, s.isTextLike = true := by
        simp only [Bool.and_eq_true, List.all_eq_true] at hall
        exact hall.2
      rw [prepareContainer, run_bind]
      split
      · refine Or.inr ⟨rfl, fun s hs => ⟨hall s hs, ?_⟩⟩
        simp only [run_bind, run_pure, reference_seen]
        exact seen_groupValues v.children c s hs
      · cases (groupValues v.children c).1.mapM Expression.literal? <;> exact Or.inl rfl
    · exact Or.inl rfl
  · exact Or.inl rfl

theorem prepareExpression_roots {u : Visited} (hu : c.outer.head?.bind Frame.node = some u) :
    let run := (u.children.drop c.frame.index).takeWhile Visited.isTextLike
    ((prepareExpression c).1.roots = [] ∨ (prepareExpression c).1.roots = nestedRoots run) ∧
      ∀ s ∈ run, (s.path, textPurpose) ∈ (prepareExpression c).2.seen := by
  intro run
  have hparent : parentNode c = (some u, c) := by rw [← hu]; rfl
  have hindex : index c = (c.frame.index, c) := rfl
  have hseen : ∀ s ∈ run,
      (s.path, textPurpose) ∈ (groupValues (groupAt u.children c.frame.index) c).2.seen := fun s hs =>
    seen_groupValues _ c s (List.mem_append_right _ hs)
  rw [prepareExpression, run_bind, hparent]
  simp only [run_bind, hindex]
  split
  · exact ⟨Or.inl rfl, hseen⟩
  · refine ⟨Or.inr (nestedRoots_groupAt _ _), fun s hs => ?_⟩
    have hkept : ∀ c' : Context, (s.path, textPurpose) ∈ c'.seen →
        (s.path, textPurpose) ∈ (reference c').2.seen := by
      intro c' hm
      rwa [reference_seen]
    exact hkept _ (hseen s hs)

theorem prepareText_of_none (hv : c.frame.node = none) : prepareText c = (.done, c) := by
  rw [prepareText, run_bind, run_node, hv]
  rfl

/-- The first half of the step for texts marks or writes the current node, or looks at its children, or at the
group of an expression. -/
theorem prepareText_cases (hv : c.frame.node = some v) :
    ((prepareText c).1 = .done ∧ (prepareText c).2.seen = c.seen ∧ (v.isTextLike = true → c.reach = [])) ∨
    (v.isTextLike = false ∧ prepareText c = prepareChildren v c) ∨
    v.isExpression = true ∧ prepareText c = prepareExpression c ∧
      ∃ u, c.outer.head?.bind Frame.node = some u ∧
        c.reach = (u.children.drop c.frame.index).takeWhile Visited.isTextLike ∧
        c.group = groupAt u.children c.frame.index := by
  have hseen : isSeen v.path textPurpose c = (c.seen.contains (v.path, textPurpose), c) := rfl
  have hreach := Context.reach.eq_def c
  have hgroup := Context.group.eq_def c
  rw [hv] at hreach hgroup
  dsimp only at hreach hgroup
  rw [prepareText, run_bind, node_of_some hv]
  dsimp only
  rw [run_bind, hseen]
  cases hmarked : c.seen.contains (v.path, textPurpose) with
  | true =>
    refine Or.inl ⟨rfl, rfl, fun htext => ?_⟩
    rw [hreach, hmarked, htext]
    simp
  | false =>
    simp only [Bool.false_eq_true, if_false]
    rw [hmarked] at hreach hgroup
    rcases v with t | ⟨path, n⟩ | ⟨path, tag, children⟩
    · exact Or.inr (Or.inl ⟨rfl, rfl⟩)
    · cases n with
      | element tag children | fragment children loc => exact Or.inr (Or.inl ⟨rfl, rfl⟩)
      | text content loc => exact Or.inl ⟨rfl, rfl, fun _ => hreach⟩
      | expression e roots loc =>
        cases hu : c.outer.head?.bind Frame.node with
        | none =>
          have hparent : parentNode c = (none, c) := by rw [← hu]; rfl
          have hdone : prepareExpression c = (.done, c) := by
            rw [prepareExpression, run_bind, hparent]
            rfl
          refine Or.inl ⟨congrArg Prod.fst hdone, congrArg (fun r => (Prod.snd r).seen) hdone, fun _ => ?_⟩
          rw [hreach, hu]
          change List.takeWhile _ (List.drop _ []) = []
          rw [List.drop_nil, List.takeWhile_nil]
        | some u =>
          rw [hu] at hreach hgroup
          exact Or.inr (Or.inr ⟨rfl, rfl, u, rfl, hreach, hgroup⟩)
    · exact Or.inl ⟨rfl, rfl, fun h => by cases h⟩

theorem prepareText_roots (hv : c.frame.node = some v) :
    (v.isTextLike = false ∧ ((prepareText c).1.roots = [] ∨
      (prepareText c).1.roots = nestedRoots v.children ∧
        ∀ s ∈ v.children, s.isTextLike = true ∧ (s.path, textPurpose) ∈ (prepareText c).2.seen)) ∨
    (v.isTextLike = true ∧ ((prepareText c).1.roots = [] ∨ (prepareText c).1.roots = nestedRoots c.reach) ∧
      ∀ s ∈ c.reach, (s.path, textPurpose) ∈ (prepareText c).2.seen) := by
  rcases prepareText_cases hv with ⟨hdone, -, hnone⟩ | ⟨htext, heq⟩ | ⟨hexp, heq, u, hu, hreach, -⟩
  · rw [hdone]
    cases htext : v.isTextLike with
    | false => exact Or.inl ⟨rfl, Or.inl rfl⟩
    | true => exact Or.inr ⟨rfl, Or.inl rfl, by simp [hnone htext]⟩
  · rw [heq]
    exact Or.inl ⟨htext, prepareChildren_roots v c⟩
  · rw [heq, hreach]
    exact Or.inr ⟨isTextLike_of_isExpression hexp, prepareExpression_roots hu⟩

/-- The elements inside expressions that are lowered with a node are inside its children, or inside its
siblings. -/
theorem rootsAmong_prepareText (c : Context) :
    ∀ r ∈ (prepareText c).1.roots, ∃ v, c.frame.node = some v ∧
      (r ∈ nestedRoots v.children ∨ v.isExpression = true ∧
        ∃ parent siblings, c.outer.head?.bind Frame.node = some parent ∧
          (∀ s ∈ siblings, s ∈ parent.children) ∧ r ∈ nestedRoots siblings) := by
  intro r hr
  cases hv : c.frame.node with
  | none =>
    rw [prepareText_of_none hv] at hr
    cases hr
  | some v =>
    refine ⟨v, rfl, ?_⟩
    rcases prepareText_cases hv with ⟨hdone, -⟩ | ⟨-, heq⟩ | ⟨hexp, heq, u, hu, -⟩
    · rw [hdone] at hr
      cases hr
    · rw [heq] at hr
      rcases prepareChildren_roots v c with hnone | ⟨hroots, -⟩
      · simp [hnone] at hr
      · exact Or.inl (hroots ▸ hr)
    · rw [heq] at hr
      obtain ⟨hnone | hroots, -⟩ := prepareExpression_roots hu
      · simp [hnone] at hr
      · refine Or.inr ⟨hexp, u, _, hu, fun s hs => ?_, hroots ▸ hr⟩
        exact List.mem_of_mem_drop (List.takeWhile_subset _ hs)

end Lower

/-! ## Conditions and loops -/

/-- The blocks that were open each time the properties of the element at a path were gathered. -/
def gatheredAt (path : Path) : List Event → List (List (Path × Bool))
  | [] => []
  | .gathered p :: log => if p = path then openBlocks log :: gatheredAt path log else gatheredAt path log
  | .entered _ _ :: log => gatheredAt path log
  | .left :: log => gatheredAt path log

/-- Whether a directive is a loop whose head can be read. -/
def Directive.isLoop (d : Directive) : Bool :=
  match d.exp.map LoopHead.ofExpression with
  | some (.ok (some _)) => true
  | _ => false

def Tag.hasLoop (tag : Tag) : Bool := (tag.directive? "for").any Directive.isLoop

namespace Lower

variable {entered : Option Bool} {wraps : Bool}

/-- What a step for a condition or a loop has done at an element: it has marked the element, and may have
entered a block and wrapped the element. -/
structure Marks (purpose : String) (path : Path) (tag : Tag) (children : List Node)
    (entered : Option Bool) (wraps : Bool) (c c' : Context) : Prop where
  before : c.frame.node = some (.node path (.element tag children))
  node : c'.frame.node =
    some (if wraps then .wrapped path tag children else .node path (.element tag children))
  outer : c'.outer = c.outer
  news : (path, purpose) ∉ c.seen
  seen : c'.seen = (path, purpose) :: c.seen
  log : c'.log = (entered.map (Event.entered path)).toList ++ c.log

section

variable {purpose : String} {path : Path} {tag : Tag} {children : List Node}

theorem Marks.still {c c' c'' : Context} (h : Marks purpose path tag children entered wraps c c')
    (hs : Still c' c'') : Marks purpose path tag children entered wraps c c'' :=
  { h with
    node := hs.node.trans h.node
    outer := hs.outer.trans h.outer
    seen := hs.seen.trans h.seen
    log := hs.log.trans h.log }

theorem marks_only {c : Context} (hv : c.frame.node = some (.node path (.element tag children)))
    (hm : (path, purpose) ∉ c.seen) :
    Marks purpose path tag children none false c { c with seen := (path, purpose) :: c.seen } :=
  ⟨hv, hv, rfl, hm, rfl, rfl⟩

theorem Marks.enterBranch (h : Marks purpose path tag children none false c c') :
    Marks purpose path tag children (some false) (tag.type != .template) c
      (Lower.enterBranch path tag children c').2 := by
  have hlog : c'.log = c.log := h.log
  by_cases ht : (tag.type != .template) = true
  · have hrun : Lower.enterBranch path tag children c' =
        ((), (reference (enterBlock tag.loc false (replaceNode (.wrapped path tag children) c').2).2).2) := by
      simp only [Lower.enterBranch, ht, if_true]
      rfl
    rw [hrun, ht]
    refine Marks.still ?_ (plain_reference.tidy _).toStill
    exact { h with node := rfl, log := congrArg (Event.entered path false :: ·) hlog }
  · have hrun : Lower.enterBranch path tag children c' =
        ((), (reference (enterBlock tag.loc false c').2).2) := by
      simp only [Lower.enterBranch, ht, Bool.false_eq_true, if_false]
      rfl
    have hpath : c'.frame.node.elim [] Visited.path = path := by rw [h.node]; rfl
    rw [hrun, eq_false_of_ne_true ht]
    refine Marks.still ?_ (plain_reference.tidy _).toStill
    exact { h with log := congrArg₂ (fun path log => Event.entered path false :: log) hpath hlog }

theorem Marks.enterFirstBranch (h : Marks purpose path tag children none false c c')
    (condition : Expression) :
    Marks purpose path tag children (some false) (tag.type != .template) c
      (Lower.enterFirstBranch path tag children condition c').2 :=
  Marks.enterBranch (h.still (((steady_modifyPlan fun p => { p with nonTemplate := true }).bind fun _ =>
    plain_reference.steady.bind fun _ => steady_modifyPlan fun p => { p with insert := true }).still c'))

theorem Marks.enterNextBranch (h : Marks purpose path tag children none false c c')
    (condition : Option Expression) :
    Marks purpose path tag children (some false) (tag.type != .template) c
      (Lower.enterNextBranch path tag children condition c').2 ∨
    Marks purpose path tag children none false c
      (Lower.enterNextBranch path tag children condition c').2 ∧
      ⟨.elseNoAdjacentIf, some tag.loc⟩ ∈ (Lower.enterNextBranch path tag children condition c').2.errors := by
  rw [Lower.enterNextBranch, run_bind, run_bind]
  have h := h.still ((steady_modifyPlan fun p => { p with nonTemplate := true }).still c')
  have h := h.still ((does_followsCondition.plain rfl).tidy _).toStill
  split
  · refine Or.inr ⟨h.still ?_, List.mem_append_right _ List.mem_cons_self⟩
    exact ((plain_report _ _).steady.bind fun _ =>
      (steady_modifyPlan fun p => { p with nonTemplate := false }).bind fun _ => .pure _).still _
  · exact Or.inl h.enterBranch

theorem branchCondition_isSome {d : Directive} (h : d.name = "if") (c : Context) :
    ∃ condition, (branchCondition d c).1 = some condition := by
  have hne : (d.name == "else") = false := by rw [h]; rfl
  simp [branchCondition, hne]

theorem atElement (c : Context) :
    (∃ path tag children, c.frame.node = some (.node path (.element tag children))) ∨
      ∀ path tag children, c.frame.node ≠ some (.node path (.element tag children)) :=
  (Classical.em _).imp_right fun h path tag children heq => h ⟨path, tag, children, heq⟩

/-- What the step for conditions does at an element. -/
theorem conditionStep_eq {c : Context}
    (hv : c.frame.node = some (.node path (.element tag children))) :
    (conditionStep c = ([], c) ∧
      (tag.isTemplateSlot = true ∨ conditionDirective? tag = none ∨ (path, "if") ∈ c.seen)) ∨
    ∃ d condition c', tag.isTemplateSlot = false ∧ conditionDirective? tag = some d ∧ (path, "if") ∉ c.seen ∧
      branchCondition d { c with seen := (path, "if") :: c.seen } = (condition, c') ∧
      ((∃ e, d.name = "if" ∧ condition = some e ∧ conditionStep c = enterFirstBranch path tag children e c') ∨
        d.name ≠ "if" ∧ conditionStep c = enterNextBranch path tag children condition c') := by
  rw [conditionStep, run_bind, node_of_some hv]
  dsimp only
  split
  · next hslot => exact Or.inl ⟨rfl, Or.inl hslot⟩
  · next hslot =>
    cases conditionDirective? tag with
    | none => exact Or.inl ⟨rfl, Or.inr (Or.inl rfl)⟩
    | some d =>
      dsimp only
      by_cases hm : (path, "if") ∈ c.seen
      · rw [run_bind, markSeen_of_mem hm]
        exact Or.inl ⟨rfl, Or.inr (Or.inr hm)⟩
      · rw [run_bind, markSeen_of_not_mem hm]
        simp only [Bool.not_true, Bool.false_eq_true, if_false, run_bind]
        have hsome := fun h => branchCondition_isSome (d := d) h { c with seen := (path, "if") :: c.seen }
        generalize hr : branchCondition d { c with seen := (path, "if") :: c.seen } = r at hsome ⊢
        refine Or.inr ⟨d, r.1, r.2, eq_false_of_ne_true hslot, rfl, hm, hr, ?_⟩
        by_cases hname : d.name = "if"
        · obtain ⟨e, he⟩ := hsome hname
          exact Or.inl ⟨e, hname, he, by simp only [he, hname, beq_self_eq_true]⟩
        · refine Or.inr ⟨hname, ?_⟩
          simp only [beq_eq_false_iff_ne.mpr hname]
          cases r.1 <;> rfl

theorem conditionStep_cases {c : Context}
    (hv : c.frame.node = some (.node path (.element tag children))) :
    (conditionStep c = ([], c) ∧
      (tag.isTemplateSlot = true ∨ conditionDirective? tag = none ∨ (path, "if") ∈ c.seen)) ∨
    ∃ d, conditionDirective? tag = some d ∧
      (Marks "if" path tag children (some false) (tag.type != .template) c (conditionStep c).2 ∨
        Marks "if" path tag children none false c (conditionStep c).2 ∧ d.name ≠ "if" ∧
          ⟨.elseNoAdjacentIf, some tag.loc⟩ ∈ (conditionStep c).2.errors) := by
  rcases conditionStep_eq hv with hidle | ⟨d, condition, c', -, hd, hm, hcondition, h⟩
  · exact Or.inl hidle
  · have hmarks := (marks_only hv hm).still (((does_branchCondition d).plain rfl).tidy _).toStill
    rw [hcondition] at hmarks
    refine Or.inr ⟨d, hd, ?_⟩
    rcases h with ⟨e, -, -, heq⟩ | ⟨hname, heq⟩
    · exact Or.inl (heq ▸ hmarks.enterFirstBranch e)
    · rw [heq]
      exact (hmarks.enterNextBranch condition).imp_right fun ⟨h, herror⟩ => ⟨h, hname, herror⟩

theorem conditionStep_of_other {c : Context}
    (h : ∀ path tag children, c.frame.node ≠ some (.node path (.element tag children))) :
    conditionStep c = ([], c) := by
  rw [conditionStep, run_bind, run_node]
  generalize c.frame.node = view at h ⊢
  dsimp only
  split
  · exact absurd rfl (h _ _ _)
  · rfl

theorem loopHead_cases (d : Directive) (c : Context) :
    (loopHead d c).1.isSome = d.isLoop ∧
      ∃ errors aborted fault, (loopHead d c).2 = { c with errors, aborted, fault } := by
  cases he : d.exp with
  | none => simp only [loopHead, Directive.isLoop, he]; exact ⟨rfl, _, _, _, rfl⟩
  | some e =>
    simp only [loopHead, Directive.isLoop, he, Option.map_some]
    rcases LoopHead.ofExpression e with fault | (_ | head)
    · exact ⟨rfl, _, _, _, rfl⟩
    · exact ⟨rfl, _, _, _, rfl⟩
    · exact ⟨rfl, _, _, _, rfl⟩

theorem Marks.loopHead (h : Marks purpose path tag children entered wraps c c') (d : Directive) :
    Marks purpose path tag children entered wraps c (Lower.loopHead d c').2 := by
  obtain ⟨-, errors, aborted, fault, hrun⟩ := loopHead_cases d c'
  rw [hrun]
  exact { h with }

theorem Marks.enterLoop (h : Marks purpose path tag children none false c c') (head : LoopHead) :
    Marks purpose path tag children (some true) true c (Lower.enterLoop path tag children head c').2 := by
  have hrun : (Lower.enterLoop path tag children head c').2 = (pushScope head.names (reference
      (enterBlock tag.loc true (reference (modifyPlan (fun p => { p with nonTemplate := true, insert := true })
        (replaceNode (.wrapped path tag children) c').2).2).2).2).2).2 := rfl
  have hreplaced : Marks purpose path tag children none true c
      (replaceNode (.wrapped path tag children) c').2 := { h with node := rfl }
  have hready := (hreplaced.still ((steady_modifyPlan fun p =>
    { p with nonTemplate := true, insert := true }).still _)).still (plain_reference.tidy _).toStill
  rw [hrun]
  generalize (reference (modifyPlan (fun p => { p with nonTemplate := true, insert := true })
    (replaceNode (.wrapped path tag children) c').2).2).2 = c₁ at hready ⊢
  have hpath : c₁.frame.node.elim [] Visited.path = path := by rw [hready.node]; rfl
  have hentered : Marks purpose path tag children (some true) true c (enterBlock tag.loc true c₁).2 :=
    { hready with
      log := congrArg₂ (fun path log => Event.entered path true :: log) hpath hready.log }
  exact { hentered.still (plain_reference.tidy _).toStill with }

/-- What the step for loops does at an element. -/
theorem loopStep_eq {c : Context} (hv : c.frame.node = some (.node path (.element tag children))) :
    (loopStep c = ([], c) ∧
      (tag.directive? "for" = none ∨ tag.isTemplateSlot = true ∨ (path, "for") ∈ c.seen)) ∨
    ∃ d head c', tag.directive? "for" = some d ∧ tag.isTemplateSlot = false ∧ (path, "for") ∉ c.seen ∧
      Lower.loopHead d { c with seen := (path, "for") :: c.seen } = (head, c') ∧
      loopStep c = head.elim (pure []) (enterLoop path tag children) c' := by
  rw [loopStep, run_bind, node_of_some hv]
  dsimp only
  cases tag.directive? "for" with
  | none => exact Or.inl ⟨rfl, Or.inl rfl⟩
  | some d =>
    dsimp only
    split
    · next hslot => exact Or.inl ⟨rfl, Or.inr (Or.inl hslot)⟩
    · next hslot =>
      by_cases hm : (path, "for") ∈ c.seen
      · rw [run_bind, markSeen_of_mem hm]
        exact Or.inl ⟨rfl, Or.inr (Or.inr hm)⟩
      · rw [run_bind, markSeen_of_not_mem hm]
        simp only [Bool.not_true, Bool.false_eq_true, if_false, run_bind]
        generalize hr : Lower.loopHead d { c with seen := (path, "for") :: c.seen } = r
        refine Or.inr ⟨d, r.1, r.2, rfl, eq_false_of_ne_true hslot, hm, hr, ?_⟩
        cases r.1 <;> rfl

theorem loopStep_cases {c : Context}
    (hv : c.frame.node = some (.node path (.element tag children))) :
    (loopStep c = ([], c) ∧
      (tag.directive? "for" = none ∨ tag.isTemplateSlot = true ∨ (path, "for") ∈ c.seen)) ∨
    tag.isTemplateSlot = false ∧
      Marks "for" path tag children (if tag.hasLoop then some true else none) tag.hasLoop c
        (loopStep c).2 := by
  rcases loopStep_eq hv with hidle | ⟨d, head, c', hd, hslot, hm, hhead, heq⟩
  · exact Or.inl hidle
  · have hmarks := (marks_only hv hm).loopHead d
    have hloop := (loopHead_cases d { c with seen := (path, "for") :: c.seen }).1
    rw [hhead] at hmarks hloop
    refine Or.inr ⟨hslot, ?_⟩
    rw [heq, Tag.hasLoop, hd, Option.any_some, ← hloop]
    cases head with
    | none => exact hmarks
    | some head => exact hmarks.enterLoop head

theorem loopStep_of_other {c : Context}
    (h : ∀ path tag children, c.frame.node ≠ some (.node path (.element tag children))) :
    loopStep c = ([], c) := by
  rw [loopStep, run_bind, run_node]
  generalize c.frame.node = view at h ⊢
  dsimp only
  split
  · exact absurd rfl (h _ _ _)
  · rfl

end

/-! ## A visit -/

/-- Take steps without a look whether the walk has stopped. -/
def takeSteps : List (Lower (List Exit)) → List Exit → Lower (List Exit)
  | [], exits => return exits
  | step :: steps, exits => do
    let left ← step
    takeSteps steps (left.reverse ++ exits)

theorem runSteps_of_collecting {steps : List (Lower (List Exit))}
    (h : ∀ step ∈ steps, Growing step ∧ Opens step) (exits : List Exit) {c : Context}
    (hc : Collecting c) (hnode : c.frame.node.isSome = true) :
    runSteps steps exits c = (some (takeSteps steps exits c).1, (takeSteps steps exits c).2) := by
  induction steps generalizing exits c with
  | nil => rfl
  | cons step steps ih =>
    obtain ⟨hgrows, hopens⟩ := h step List.mem_cons_self
    have hc' := (hgrows c).collecting hc
    have hnode' := hopens.node c hc'.goesOn hnode
    have hgo : ((step c).2.aborted || (step c).2.frame.node.isNone) = false := by
      rw [hc'.goesOn, Bool.false_or, Option.isNone_eq_false_iff]
      exact hnode'
    rw [runSteps_cons, hgo, if_neg (by simp), ih (fun s hs => h s (List.mem_cons_of_mem _ hs)) _ hc' hnode']
    rfl

/-- What is done at a node before the elements inside expressions and the children are visited. The result
is what is left to do. -/
def approach : Lower (List Exit) := do
  let _ ← onceStep
  let branch ← conditionStep
  let loop ← loopStep
  let stored ← referenceStep
  let element ← elementStep
  return element.reverse ++ (stored.reverse ++ (loop.reverse ++ branch.reverse))

theorem does_approach :
    Does [.once, .mark, .flags, .report, .wrap, .enter, .number, .fault, .scope, .names] approach :=
  does_onceStep.bind rfl fun _ => does_conditionStep.bind rfl fun _ => does_loopStep.bind rfl fun _ =>
    does_referenceStep.bind rfl fun _ => does_elementStep.bind rfl fun _ => .pure _

theorem lowerNode_collecting {c : Context} (hc : Collecting c) (hnode : c.frame.node.isSome = true)
    (depth : Nat) :
    lowerNode .none (depth + 1) c = (do
      let left ← approach
      let _ ← textStep (lowerNode .none depth)
      let slots ← slotStep
      let _ ← childrenStep (lowerNode .none depth)
      runExits .none (slots.reverse ++ left)) c := by
  have hbalanced := balanced_lowerNode depth
  have hrun := runSteps_of_collecting
    (fun step hstep => ⟨growing_steps hbalanced.grows hstep, opens_steps hbalanced hstep⟩) [] hc hnode
  rw [lowerNode_succ, hrun]
  simp only [takeSteps, steps, approach, Extensions.none, List.append_nil, run_bind, run_pure,
    onceStep_exits, textStep_exits, childrenStep_exits, List.reverse_nil, List.nil_append]

/-- Whether the walk has come nearer to the current node: it is the same, or an element is now wrapped. No
other node was marked. -/
structure Nears (c c' : Context) : Prop where
  grows : Grows c c'
  outer : c'.outer = c.outer
  node : ∀ v, c.frame.node = some v → ∃ v', c'.frame.node = some v' ∧ v'.cost c'.seen ≤ v.cost c.seen ∧
    (v' = v ∨ ∃ path tag children, v = .node path (.element tag children) ∧
      v' = .wrapped path tag children)
  seen : ∀ v, c.frame.node = some v → ∀ m ∈ c'.seen, m ∈ c.seen ∨ m.1 = v.path ∧ m.2 ≠ textPurpose
  gathered : ∀ path, gatheredAt path c'.log = gatheredAt path c.log
  opened : ∀ v, c.frame.node = some v → ∀ b ∈ openBlocks c'.log, b ∈ openBlocks c.log ∨ b.1 = v.path

theorem Nears.path {c c' : Context} (h : Nears c c') {v : Visited} (hv : c.frame.node = some v) :
    ∃ v', c'.frame.node = some v' ∧ v'.path = v.path := by
  obtain ⟨v', hv', -, hkind⟩ := h.node v hv
  rcases hkind with rfl | ⟨path, tag, children, rfl, rfl⟩
  · exact ⟨v', hv', rfl⟩
  · exact ⟨_, hv', rfl⟩

theorem Nears.trans {c c' c'' : Context} (h : Nears c c') (h' : Nears c' c'') : Nears c c'' where
  grows := h.grows.trans h'.grows
  outer := h'.outer.trans h.outer
  node := by
    intro v hv
    obtain ⟨v₁, hv₁, hcost₁, hkind₁⟩ := h.node v hv
    obtain ⟨v₂, hv₂, hcost₂, hkind₂⟩ := h'.node v₁ hv₁
    refine ⟨v₂, hv₂, Nat.le_trans hcost₂ hcost₁, ?_⟩
    rcases hkind₂ with rfl | ⟨path, tag, children, rfl, rfl⟩
    · exact hkind₁
    · -- An element that is met as a wrapper is not wrapped again.
      rcases hkind₁ with rfl | ⟨_, _, _, _, hwrapped⟩
      · exact Or.inr ⟨path, tag, children, rfl, rfl⟩
      · cases hwrapped
  seen := by
    intro v hv m hm
    obtain ⟨v₁, hv₁, hpath⟩ := h.path hv
    rcases h'.seen v₁ hv₁ m hm with hm | ⟨hm, hpurpose⟩
    · exact h.seen v hv m hm
    · exact Or.inr ⟨hm.trans hpath, hpurpose⟩
  gathered := fun path => (h'.gathered path).trans (h.gathered path)
  opened := by
    intro v hv b hb
    obtain ⟨v₁, hv₁, hpath⟩ := h.path hv
    rcases h'.opened v₁ hv₁ b hb with hb | hb
    · exact h.opened v hv b hb
    · exact Or.inr (hb.trans hpath)

theorem nears_of_still (hg : Grows c c') (h : Still c c') : Nears c c' where
  grows := hg
  outer := h.outer
  node := fun v hv => ⟨v, h.node.trans hv, Nat.le_of_eq (by rw [h.seen]), Or.inl rfl⟩
  seen := fun v _ m hm => Or.inl (h.seen ▸ hm)
  gathered := fun path => by rw [h.log]
  opened := fun v _ b hb => Or.inl (h.log ▸ hb)

theorem nears_of_marks {purpose : String} {path : Path} {tag : Tag} {children : List Node}
    (hp : purpose = "if" ∨ purpose = "for") (hg : Grows c c')
    (h : Marks purpose path tag children entered wraps c c') : Nears c c' where
  grows := hg
  outer := h.outer
  node := by
    intro v hv
    obtain rfl := Option.some.inj (hv.symm.trans h.before)
    refine ⟨_, h.node, ?_, ?_⟩
    · have hif := markOf_mono hg.seen path "if"
      have hfor := markOf_mono hg.seen path "for"
      -- The wrapper costs one more than the element, and the mark makes the element cheaper.
      have hmark : markOf c.seen path purpose = 0 ∧ markOf c'.seen path purpose = 1 := by
        simp [markOf, h.news, h.seen]
      have hle := markOf_le c'.seen path
      have hif' := hle "if"
      have hfor' := hle "for"
      cases wraps with
      | false =>
        simp only [Bool.false_eq_true, if_false, Visited.cost]
        omega
      | true =>
        simp only [if_true, Visited.cost]
        rcases hp with rfl | rfl <;> omega
    · cases wraps with
      | false => exact Or.inl rfl
      | true => exact Or.inr ⟨path, tag, children, rfl, rfl⟩
  seen := by
    intro v hv m hm
    obtain rfl := Option.some.inj (hv.symm.trans h.before)
    rw [h.seen] at hm
    rcases List.mem_cons.mp hm with rfl | hm
    · refine Or.inr ⟨rfl, ?_⟩
      rcases hp with rfl | rfl <;> simp [textPurpose]
    · exact Or.inl hm
  gathered := by
    intro q
    rw [h.log]
    cases entered <;> rfl
  opened := by
    intro v hv b hb
    obtain rfl := Option.some.inj (hv.symm.trans h.before)
    rw [h.log] at hb
    cases entered with
    | none => exact Or.inl hb
    | some isLoop => exact (List.mem_cons.mp hb).symm.imp id (congrArg Prod.fst)

theorem nears_of_eq (h : c' = c) : Nears c c' := by
  subst h
  exact nears_of_still (.refl _) (.refl _)

theorem nears_conditionStep (c : Context) : Nears c (conditionStep c).2 := by
  have hg := does_conditionStep.grows c
  rcases atElement c with ⟨path, tag, children, hv⟩ | hv
  · rcases conditionStep_cases hv with ⟨h, -⟩ | ⟨d, -, h | ⟨h, -⟩⟩
    · exact nears_of_eq (by rw [h])
    · exact nears_of_marks (Or.inl rfl) hg h
    · exact nears_of_marks (Or.inl rfl) hg h
  · exact nears_of_eq (by rw [conditionStep_of_other hv])

theorem nears_loopStep (c : Context) : Nears c (loopStep c).2 := by
  have hg := does_loopStep.grows c
  rcases atElement c with ⟨path, tag, children, hv⟩ | hv
  · rcases loopStep_cases hv with ⟨h, -⟩ | ⟨-, h⟩
    · exact nears_of_eq (by rw [h])
    · exact nears_of_marks (Or.inr rfl) hg h
  · exact nears_of_eq (by rw [loopStep_of_other hv])

theorem nears_approach (c : Context) : Nears c (approach c).2 := by
  let c₁ := (onceStep c).2
  let c₂ := (conditionStep c₁).2
  let c₃ := (loopStep c₂).2
  have honce : Nears c c₁ := nears_of_still (plain_onceStep.grows c) (plain_onceStep.tidy c).toStill
  have hlast : Nears c₃ (referenceStep c₃).2 :=
    nears_of_still (does_referenceStep.grows c₃) ((does_referenceStep.steady rfl).still c₃)
  exact ((honce.trans (nears_conditionStep c₁)).trans (nears_loopStep c₂)).trans hlast

end Lower

/-! ## Slots, and what is left to do -/

def Exit.isElement : Exit → Bool
  | .element _ => true
  | _ => false

/-- Whether the walk is at the same node, and has neither marked a node nor gathered properties. -/
structure Hushed (c c' : Context) : Prop where
  node : c'.frame.node = c.frame.node
  seen : c'.seen = c.seen
  gathered : ∀ path, gatheredAt path c'.log = gatheredAt path c.log
  opened : ∀ b ∈ openBlocks c'.log, b ∈ openBlocks c.log ∨ b.1 = c.frame.node.elim [] Visited.path

theorem Hushed.trans {c c' c'' : Context} (h : Hushed c c') (h' : Hushed c' c'') : Hushed c c'' where
  node := h'.node.trans h.node
  seen := h'.seen.trans h.seen
  gathered := fun path => (h'.gathered path).trans (h.gathered path)
  opened := by
    intro b hb
    rcases h'.opened b hb with hb | hb
    · exact h.opened b hb
    · exact Or.inr (h.node ▸ hb)

theorem hushed_of_log (hnode : c'.frame.node = c.frame.node) (hseen : c'.seen = c.seen)
    (hlog : c'.log = c.log) : Hushed c c' where
  node := hnode
  seen := hseen
  gathered := fun path => by rw [hlog]
  opened := fun b hb => Or.inl (hlog ▸ hb)

theorem Still.hushed (h : Still c c') : Hushed c c' := hushed_of_log h.node h.seen h.log

def Deed.isHushed : Deed → Bool
  | .text | .mark | .wrap | .gather => false
  | _ => true

theorem hushed_exitBlock (c : Context) : Hushed c (Lower.exitBlock c).2 := by
  obtain ⟨_, _, _, _, _, _, _, _, _, h⟩ := Lower.exitBlock_state c
  rw [h]
  exact ⟨rfl, rfl, fun _ => rfl, fun _ hb => Or.inl (List.mem_of_mem_tail hb)⟩

theorem Deed.Changes.hushed {d : Deed} (h : Changes c d c') (hd : d.isHushed = true) : Hushed c c' := by
  by_cases hstill : d.isStill = true
  · exact (h.still hstill).hushed
  · cases h with
    | enter loc isLoop =>
      exact ⟨rfl, rfl, fun _ => rfl, fun _ hb => (List.mem_cons.mp hb).symm.imp id (congrArg Prod.fst)⟩
    | leave => exact hushed_exitBlock c
    | attach | give =>
      rw [Lower.modifyParent_run]
      exact hushed_of_log rfl rfl rfl
    | discard | scope | fault => exact hushed_of_log rfl rfl rfl
    | text | mark | wrap | gather => cases hd
    | _ => exact absurd rfl hstill

namespace Lower

/-- Whether an action stays at the node, and neither marks a node nor gathers properties. -/
def Hushing {α : Type} (x : Lower α) : Prop := ∀ c, Hushed c (x c).2

theorem Hushing.bind {α β : Type} {x : Lower α} {f : α → Lower β} (hx : Hushing x)
    (hf : ∀ a, Hushing (f a)) : Hushing (x >>= f) := fun c => (hx c).trans (hf _ _)

theorem Does.hushing {α : Type} {deeds : List Deed} {x : Lower α} (h : Does deeds x)
    (hd : deeds.all Deed.isHushed = true) : Hushing x :=
  h.related (fun c => (Still.refl c).hushed) .trans fun d hmem _ _ hc => hc.hushed (List.all_eq_true.mp hd d hmem)

theorem Steady.hushing {α : Type} {x : Lower α} (h : Steady x) : Hushing x := fun c => (h.still c).hushed

theorem hushing_slotStep : Hushing slotStep := does_slotStep.hushing rfl

theorem slotStep_of_other {c : Context}
    (h : ∀ path tag children, c.frame.node ≠ some (.node path (.element tag children))) :
    slotStep c = ([], c) := by
  rw [slotStep, run_bind, run_node]
  generalize c.frame.node = view at h ⊢
  dsimp only
  split
  · exact absurd rfl (h _ _ _)
  · rfl

theorem hushing_runExit {exit : Exit} (hown : exit.isOwn = true) (hother : exit.isElement = false) :
    Hushing (runExit .none exit) := by
  refine (does_runExit hown).hushing ?_
  cases exit with
  | element cursor => cases hother
  | _ => rfl

theorem hushing_runExits {exits : List Exit}
    (h : ∀ exit ∈ exits, exit.isOwn = true ∧ exit.isElement = false) :
    Hushing (runExits .none exits) :=
  related_runExits (fun c => (Still.refl c).hushed) .trans fun exit he => hushing_runExit (h exit he).1 (h exit he).2

theorem runExits_append (exits exits' : List Exit) (c : Context) :
    (runExits .none (exits ++ exits') c).2 = (runExits .none exits' (runExits .none exits c).2).2 := by
  induction exits generalizing c with
  | nil => rfl
  | cons exit exits ih =>
    rw [List.cons_append, runExits_cons, runExits_cons]
    split
    · next hstop => rw [runExits_of_aborted hstop]
    · exact ih _

theorem exitElement_of_element {c : Context} {path : Path} {tag : Tag} {children : List Node}
    (hv : c.frame.node = some (.node path (.element tag children))) (ht : tag.type ≠ .template)
    (cursor : Cursor) :
    Hushed { c with log := .gathered path :: c.log } (exitElement .none cursor c).2 := by
  have ht : (tag.type == .template) = false := beq_eq_false_iff_ne.mpr ht
  rw [exitElement, run_bind, node_of_some hv]
  simp only [ht, Bool.false_eq_true, if_false]
  rw [run_bind]
  refine Hushing.bind ((does_propertiesOf _ _ _).hushing rfl) (fun r => ?_) _
  refine Hushing.bind (fun c => (Still.refl c).hushed) fun singleRoot => ?_
  split
  · exact (does_lowerComponent _ _ _).hushing rfl
  · exact (does_lowerElement _ _ _ _).hushing rfl

theorem exitElement_of_other {c : Context}
    (h : ∀ path tag children, c.frame.node = some (.node path (.element tag children)) →
      tag.type = .template) (cursor : Cursor) : exitElement .none cursor c = ((), c) := by
  rw [exitElement, run_bind, run_node]
  generalize c.frame.node = view at h ⊢
  dsimp only
  split
  · next path tag children =>
    have ht : (tag.type == .template) = true := by rw [h path tag children rfl]; rfl
    simp only [ht, if_true]
    rfl
  · rfl

theorem Leaves.other {kind : Exit.Kind} {step : Lower (List Exit)} (h : Leaves kind step)
    (hkind : kind ≠ .element) (c : Context) : ∀ exit ∈ (step c).1, exit.isElement = false := by
  intro exit he
  have hexit := (h c).2 exit he
  cases exit with
  | element cursor => exact absurd hexit.symm hkind
  | _ => rfl

end Lower

end JsxTemplate
