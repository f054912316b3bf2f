import JsxTemplate.Proofs.Lowering.Chains
import JsxTemplate.Proofs.Lowering.Reactivity

/-!
# Conditions among siblings

Elements take part in conditions by the step for conditions: one starts a condition, others join the last
one if they may (`Context.mayJoin`), and the rest are reported. So whenever the walk has visited the
children of a node, their plans hold exactly the conditions that start there, each with the branches of the
elements that join it (`conditions_follow_siblings`). Such an element stands right behind the branch before
it, with one exception: an element that looks joinable but takes no part in any condition is passed over.
-/

namespace JsxTemplate

variable {v child : Visited}

namespace Directive

/-- The condition of a branch; the last branch has none of its own. A missing one counts as true. -/
def branchCondition? (d : Directive) : Option Expression :=
  if d.name == "else" then none else some (d.exp.getD ⟨"true", false, d.loc⟩)

def branchErrors (d : Directive) : List Diagnostic :=
  if d.name == "else" || d.exp.isSome then [] else [⟨.ifNoExpression, some d.loc⟩]

end Directive

/-- The state after an element has found no condition to join. -/
def Context.rejectBranch (c : Context) (path : Path) (tag : Tag) (d : Directive) : Context :=
  { c with
    seen := (path, "if") :: c.seen
    errors := c.errors ++ d.branchErrors ++ [⟨.elseNoAdjacentIf, some tag.loc⟩] }

theorem Visited.exists_of_condition {v : Visited} {d : Directive} (h : v.condition? = some d) :
    ∃ path tag children, v = .node path (.element tag children) := by
  match v, h with
  | .node path (.element tag children), _ => exact ⟨path, tag, children, rfl⟩

theorem Visited.path_ne_of_child (hsource : ∀ path tag children, v ≠ .wrapped path tag children)
    (hchild : child ∈ v.children) : child.path ≠ v.path := by
  match v, hchild with
  | .wrapped path tag children, _ => exact absurd rfl (hsource path tag children)
  | .root t, hchild =>
    obtain ⟨⟨n, i⟩, -, rfl⟩ := List.mem_map.mp hchild
    exact List.cons_ne_nil _ _
  | .node path n, hchild =>
    obtain ⟨⟨n, i⟩, -, rfl⟩ := List.mem_map.mp hchild
    exact List.cons_ne_self i path

theorem NodePlan.makes_insertRun (run : List Nat) (insertion : Insertion) (ns : List NodePlan) :
    (NodePlan.insertRun run insertion ns).map NodePlan.makes = ns.map NodePlan.makes := by
  refine NodePlan.map_insertRun (fun n => ?_) run ns
  rcases hop : n.operation with _ | op
  · simp [NodePlan.makes, NodePlan.branch?, hop]
  · cases op <;> simp [NodePlan.makes, NodePlan.branch?, hop, Operation.insertAt]

theorem NodePlan.makes_modify {f : NodePlan → NodePlan} (hf : ∀ n, (f n).makes = n.makes) (k : Nat)
    (ns : List NodePlan) : (ns.modify k f).map NodePlan.makes = ns.map NodePlan.makes := by
  refine List.ext_getElem? fun i => ?_
  rw [List.getElem?_map, List.getElem?_map, List.getElem?_modify]
  by_cases hk : k = i <;> cases ns[i]? <;> simp [hk, hf]

def Context.afterOnce (c : Context) : Context := c.withOnce (c.frame.once || c.startsOnce)

/-- Whether the current element may join a condition: the child before it looks joinable, and the last
condition is open. -/
def Context.mayJoin (c : Context) : Bool :=
  (if c.frame.index == 0 then none
    else (c.outer.head?.bind Frame.node).bind fun p => p.children[c.frame.index - 1]?).any
      Visited.looksJoinable &&
    c.outer.head?.any fun p => (lastBranch? p.plan.children.reverse).any Branch.isOpen

namespace Lower

variable {c : Context} {j k : Nat}

theorem branchCondition_eq (hc : Collecting c) (d : Directive) :
    branchCondition d c = (d.branchCondition?, { c with errors := c.errors ++ d.branchErrors }) := by
  obtain ⟨hcollects, hgo⟩ := hc
  rw [branchCondition, Directive.branchCondition?, Directive.branchErrors]
  cases d.name == "else" with
  | true => simp [run_pure]
  | false =>
    cases hexp : d.exp with
    | some e => simp [conditionOf, hexp, run_bind, run_pure]
    | none => simp [conditionOf, hexp, run_bind, run_pure, report, hcollects, hgo]

theorem followsCondition_eq (c : Context) : followsCondition c = (c.mayJoin, c) := by
  have hlooks : ∀ before : Option Visited, before.any Visited.looksJoinable =
      (before.bind Visited.tag?).any fun tag => tag.hasDirective ["if", "else-if"] := by
    rintro (_ | before) <;> rfl
  have hindex : index c = (c.frame.index, c) := rfl
  have hparent : parentFrame? c = (c.outer.head?, c) := rfl
  rw [followsCondition, run_bind, hindex, Context.mayJoin, hlooks]
  simp only [run_bind, hparent]
  cases (if c.frame.index == 0 then none
    else (c.outer.head?.bind Frame.node).bind fun p => p.children[c.frame.index - 1]?).bind Visited.tag? with
  | none => rfl
  | some tag => cases hdirective : tag.hasDirective ["if", "else-if"] <;> simp [hdirective, run_pure]

section

variable {c : Context} {path : Path} {tag : Tag} {children : List Node}

theorem enterNextBranch_eq (condition : Option Expression) :
    enterNextBranch path tag children condition c =
      (if c.mayJoin then do
          enterBranch path tag children
          return [.otherwise condition]
        else do
          report .elseNoAdjacentIf (some tag.loc)
          modifyPlan fun p => { p with nonTemplate := false }
          return [] : Lower (List Exit))
      { c with frame := { c.frame with plan := { c.frame.plan with nonTemplate := true } } } := by
  have hmodify : modifyPlan (fun p => { p with nonTemplate := true }) c =
      ((), { c with frame := { c.frame with plan := { c.frame.plan with nonTemplate := true } } }) := rfl
  rw [enterNextBranch, run_bind, hmodify, run_bind, followsCondition_eq]
  change (if !c.mayJoin then _ else _ : Lower (List Exit)) _ = _
  cases c.mayJoin <;> rfl

theorem enterBranch_errors (path : Path) (tag : Tag) (children : List Node) (c : Context) :
    (enterBranch path tag children c).2.errors = c.errors := by
  have hreference : ∀ c : Context, (reference c).2.errors = c.errors := by
    intro c
    obtain ⟨_, _, _, h⟩ := reference_state c
    rw [h]
  rw [enterBranch]
  cases tag.type != .template with
  | true => exact hreference (enterBlock tag.loc false (replaceNode (.wrapped path tag children) c).2).2
  | false => exact hreference (enterBlock tag.loc false c).2

theorem enterNextBranch_of_mayJoin (h : c.mayJoin = true) (condition : Option Expression) :
    (enterNextBranch path tag children condition c).1 = [.otherwise condition] ∧
      (enterNextBranch path tag children condition c).2.errors = c.errors ∧
      ∃ s, (enterNextBranch path tag children condition c).2.saved = s :: c.saved ∧
        s.plan.operation = c.frame.plan.operation := by
  obtain ⟨⟨s, henter, hplan⟩, -⟩ := encloses_enterBranch path tag children
    { c with frame := { c.frame with plan := { c.frame.plan with nonTemplate := true } } }
  rw [enterNextBranch_eq, if_pos h]
  exact ⟨rfl, enterBranch_errors path tag children _, s, henter.saved, by rw [hplan]⟩

theorem enterNextBranch_of_not (h : c.mayJoin = false) (hc : Collecting c)
    (hplan : c.frame.plan = .empty) (condition : Option Expression) :
    enterNextBranch path tag children condition c =
      ([], { c with errors := c.errors ++ [⟨.elseNoAdjacentIf, some tag.loc⟩] }) := by
  rw [enterNextBranch_eq, if_neg (by rw [h]; decide)]
  change (([] : List Exit), { c with
    frame := { c.frame with plan := { c.frame.plan with nonTemplate := false } }
    errors := c.errors ++ [(⟨.elseNoAdjacentIf, some tag.loc⟩ : Diagnostic)]
    aborted := c.aborted || !c.options.collectErrors }) = _
  have hsame : ({ c.frame.plan with nonTemplate := false } : NodePlan) = c.frame.plan := by rw [hplan]; rfl
  rw [hsame, hc.collects, Bool.not_true, Bool.or_false]

variable {d : Directive} (hc : Collecting c) (hv : c.frame.node = some (.node path (.element tag children)))
  (hd : (Visited.node path (.element tag children)).condition? = some d) (hnew : (path, "if") ∉ c.seen)

include hc hv hd hnew

theorem conditionStep_of_condition :
    conditionStep c =
      (if d.name = "if" then enterFirstBranch path tag children (d.exp.getD ⟨"true", false, d.loc⟩)
        else enterNextBranch path tag children d.branchCondition?)
      { c with seen := (path, "if") :: c.seen, errors := c.errors ++ d.branchErrors } := by
  obtain ⟨hslot, hdirective⟩ : tag.isTemplateSlot = false ∧ conditionDirective? tag = some d := by
    simp only [Visited.condition?, Visited.tag?, Option.bind_some] at hd
    split at hd
    · cases hd
    · next hslot => exact ⟨Bool.eq_false_iff.mpr hslot, hd⟩
  have hc' : Collecting { c with seen := (path, "if") :: c.seen } := ⟨hc.collects, hc.goesOn⟩
  rw [conditionStep, run_bind, node_of_some hv]
  simp only [hslot, Bool.false_eq_true, if_false, hdirective]
  rw [run_bind, markSeen_of_not_mem hnew]
  simp only [Bool.not_true, Bool.false_eq_true, if_false, run_bind, branchCondition_eq hc']
  by_cases hname : d.name = "if"
  · have hcondition : d.branchCondition? = some (d.exp.getD ⟨"true", false, d.loc⟩) := by
      rw [Directive.branchCondition?, hname]
      rfl
    simp only [hname, hcondition, beq_self_eq_true, if_true]
  · simp only [beq_eq_false_iff_ne.mpr hname, if_neg hname]
    cases d.branchCondition? <;> rfl

theorem conditionStep_of_starts (hname : d.name = "if") :
    ∃ id condition, d.branchCondition? = some condition ∧ (conditionStep c).1 = [.branch id condition] := by
  rw [conditionStep_of_condition hc hv hd hnew, if_pos hname]
  refine ⟨_, d.exp.getD ⟨"true", false, d.loc⟩, ?_, rfl⟩
  rw [Directive.branchCondition?, hname]
  rfl

theorem conditionStep_of_mayJoin (hname : d.name ≠ "if") (hjoin : c.mayJoin = true) :
    (conditionStep c).1 = [.otherwise d.branchCondition?] ∧
      (conditionStep c).2.errors = c.errors ++ d.branchErrors ∧
      ∃ s, (conditionStep c).2.saved = s :: c.saved ∧ s.plan.operation = c.frame.plan.operation := by
  rw [conditionStep_of_condition hc hv hd hnew, if_neg hname]
  exact enterNextBranch_of_mayJoin
    (c := { c with seen := (path, "if") :: c.seen, errors := c.errors ++ d.branchErrors }) hjoin _

theorem conditionStep_of_not (hname : d.name ≠ "if") (hjoin : c.mayJoin = false)
    (hplan : c.frame.plan = .empty) : conditionStep c = ([], c.rejectBranch path tag d) := by
  rw [conditionStep_of_condition hc hv hd hnew, if_neg hname]
  exact enterNextBranch_of_not
    (c := { c with seen := (path, "if") :: c.seen, errors := c.errors ++ d.branchErrors })
    hjoin ⟨hc.collects, hc.goesOn⟩ hplan _

end

/-! ## Visiting a child -/

/-- The block of a branch, for which the walk may go down as far as the number says. -/
def branchBlock (depth : Nat) (c : Context) : Block :=
  (exitBlock (lowerBody (lowerNode .none (depth - 1)) (conditionStep (onceStep c).2).2).2).1

/-- The state in which a branch is finished, if there is one, when the walk has come to a node in the state
`c`. -/
structure BeforeExit (depth : Nat) (c c' : Context) : Prop where
  exits : (lowerNode .none (depth + 1) c).2 = (runExits .none (conditionStep (onceStep c).2).1 c').2
  goesOn : c'.aborted = false
  around : SlotsChanged c.outer c'.outer
  saved : c'.saved = (conditionStep (onceStep c).2).2.saved
  block : (exitBlock c').1 = branchBlock (depth + 1) c
  plan : c'.frame.plan.branch? = none

theorem beforeExit (hc : Collecting c) (hnode : c.frame.node.isSome = true)
    (hheeds : Heeds (fun n => n.branch? = none) c) (depth : Nat) : ∃ c', BeforeExit depth c c' := by
  have hQ := PlanRule.unbranched
  have hminds := around_lowerNode depth
  have hbalanced := balanced_lowerNode depth
  have hc₁ := (plain_onceStep.grows c).collecting hc
  have hc₂ := (does_conditionStep.grows (onceStep c).2).collecting hc₁
  have houter := (nears_conditionStep (onceStep c).2).outer.trans (plain_onceStep.tidy c).outer
  have hheeds₂ := does_conditionStep.heeding hQ rfl _ (does_onceStep.heeding hQ rfl c hheeds)
  exact ⟨_,
    { exits := lowerNode_eq_body hc hnode depth
      goesOn := ((grows_lowerBody hbalanced hc₂).collecting hc₂).goesOn
      around := houter ▸ slotsChanged_lowerBody hbalanced hc₂ hminds
      saved := congrArg Stacks.saved (stacks_lowerBody hbalanced hc₂)
      block := rfl
      plan := (unbranched_lowerBody hminds hbalanced hc₂ hheeds₂).plan }⟩

section

variable {depth : Nat} {c c' : Context} {p : Frame} {ps : List Frame}

namespace BeforeExit

variable (h : BeforeExit depth c c') (houter : c.outer = p :: ps)

include h houter

theorem visit_other (hexits : (conditionStep (onceStep c).2).1 = []) :
    ∃ p', (lowerNode .none (depth + 1) c).2.outer = p' :: ps ∧ p'.plan = p.plan ∧
      (lowerNode .none (depth + 1) c).2.frame.plan.branch? = none := by
  obtain ⟨p', hp, -, hplan⟩ := (houter ▸ h.around).of_cons
  rw [h.exits, hexits]
  exact ⟨p', hp, hplan, h.plan⟩

theorem visit_starts {id : Nat} {condition : Expression}
    (hexits : (conditionStep (onceStep c).2).1 = [.branch id condition]) :
    ∃ p' b, (lowerNode .none (depth + 1) c).2.outer = p' :: ps ∧ p'.plan = p.plan ∧
      (lowerNode .none (depth + 1) c).2.frame.plan.branch? = some b ∧
      b.links = [(some condition, branchBlock (depth + 1) c)] := by
  obtain ⟨p', hp, -, hplan⟩ := (houter ▸ h.around).of_cons
  rw [h.exits, hexits, runExits_cons, if_neg (by simp [h.goesOn]), ← h.block]
  exact ⟨p', _, (exitBlock_outer _).trans hp, hplan, rfl, rfl⟩

theorem visit_joins {condition : Option Expression} {s : SavedBlock} {saved : List SavedBlock}
    (hexits : (conditionStep (onceStep c).2).1 = [.otherwise condition])
    (hsaved : (conditionStep (onceStep c).2).2.saved = s :: saved) (hs : s.plan.operation = none) :
    ∃ p' once, (lowerNode .none (depth + 1) c).2.outer = p' :: ps ∧
      p'.plan.children = (mapLastBranch (fun b => b.attach
        (.ofBranch b.id condition (branchBlock (depth + 1) c) once)) p.plan.children.reverse).reverse ∧
      (lowerNode .none (depth + 1) c).2.frame.plan.operation = none := by
  obtain ⟨p', hp, -, hplan⟩ := (houter ▸ h.around).of_cons
  let once := c'.frame.once || condition.any Expression.isConstant
  have houter' : (exitBlock c').2.outer = p' :: ps := (exitBlock_outer c').trans hp
  obtain ⟨template, pieces, -, hexit⟩ := exitBlock_of_saved (h.saved.trans hsaved)
  have hrun : (runExit .none (.otherwise condition) c').2 =
      { (exitBlock c').2 with outer := p'.attachBranch (fun id => .ofBranch id condition
        (exitBlock c').1 once) :: ps } :=
    congrArg Prod.snd (modifyParent_of_cons houter' _)
  rw [h.exits, hexits, runExits_cons, if_neg (by simp [h.goesOn]), hrun, h.block]
  refine ⟨_, once, rfl, ?_, ?_⟩
  · rw [← hplan]
    rfl
  · change (exitBlock c').2.frame.plan.operation = none
    rw [hexit]
    exact hs

end BeforeExit

theorem children_takeChild (isFragment : Bool) (houter : c.outer = p :: ps) :
    ∃ n : NodePlan, (takeChild isFragment c).2.frame.plan.children = p.plan.children ++ [n] ∧
      n.operation = c.frame.plan.operation := by
  rw [takeChild_eq houter]
  cases isFragment with
  | false => exact ⟨c.frame.plan, rfl, rfl⟩
  | true =>
    obtain ⟨roots, hadd⟩ := addToBlock_eq c
    refine ⟨_, rfl, ?_⟩
    rw [if_pos rfl, hadd]
    refine Eq.trans ?_ (plain_reference.tidy c).operation
    rcases registerTemplate_cases (reference c).2 with ⟨hrun, -⟩ | ⟨k, pieces, hrun, -⟩ <;> rw [hrun]

end

/-! ## Visiting all children -/

theorem conditionStep_of_none {v : Visited} (hv : c.frame.node = some v) (hd : v.condition? = none) :
    conditionStep c = ([], c) := by
  rcases atElement c with ⟨path, tag, children, h⟩ | h
  · obtain rfl := Option.some.inj (hv.symm.trans h)
    rcases conditionStep_eq h with ⟨hidle, -⟩ | ⟨d, _, _, hslot, hd', -⟩
    · exact hidle
    · simp [Visited.condition?, Visited.tag?, hslot, hd'] at hd
  · exact conditionStep_of_other h

/-- Whether a condition and a block are those of the branch of a child; `c` is the state in which the walk
turns to the children of the node `v`. -/
def IsLink (depth : Nat) (v : Visited) (c : Context) (j : Nat) (l : Option Expression × Block) : Prop :=
  ∃ child d, v.children[j]? = some child ∧ child.condition? = some d ∧
    l = (d.branchCondition?, branchBlock depth (comeToChild (lowerNode .none depth) v j child c))

theorem IsLink.closes_iff {depth : Nat} {v : Visited} {l : Option Expression × Block}
    (h : IsLink depth v c j l) : l.1 = none ↔ v.children[j]?.any Visited.closesCondition = true := by
  obtain ⟨child, d, hchild, hd, rfl⟩ := h
  rw [hchild, Option.any_some, Visited.closesCondition, hd, Option.any_some, Directive.branchCondition?]
  cases d.name == "else" <;> simp

theorem mayJoin_enterChild (hv : c.frame.node = some v) :
    (c.enterChild child k).mayJoin = true ↔ (0 < k ∧ v.children[k - 1]?.any Visited.looksJoinable = true) ∧
      ∃ b, lastBranch? c.frame.plan.children.reverse = some b ∧ b.isOpen = true := by
  change ((if k == 0 then none else (some c.frame |>.bind Frame.node).bind fun p => p.children[k - 1]?).any
    Visited.looksJoinable && (lastBranch? c.frame.plan.children.reverse).any Branch.isOpen) = true ↔ _
  rw [Option.bind_some, hv, Option.bind_some, Bool.and_eq_true, Option.any_eq_true (p := Branch.isOpen)]
  by_cases hk : k = 0
  · simp [hk]
  · simp [hk, Nat.pos_of_ne_zero hk]

section

variable {t : Template} {depth : Nat} {c : Context} {v child : Visited} {k : Nat}
  {IsLink : Nat → Option Expression × Block → Prop} (hchild : v.children[k]? = some child)
  (ha : Arrived t (depth + 1) (c.enterChild child k))
  (hheeds : Heeds (fun n => n.branch? = none) (c.enterChild child k))
  (hlength : c.frame.plan.children.length = k) (h : Chained v.children IsLink c.frame.plan.children)
  (isFragment : Bool)

include hchild ha hheeds hlength h

theorem chained_of_other (hstarts : child.startsCondition = false)
    (hnot : ∀ i, ¬ Joins v.children c.frame.plan.children i k)
    (hexits : (conditionStep (c.enterChild child k).afterOnce).1 = []) :
    Continues v.children IsLink c.frame.plan.children
      (afterChild (lowerNode .none (depth + 1)) isFragment child k c).frame.plan.children := by
  obtain ⟨c', hexit⟩ := beforeExit ha.collecting rfl hheeds depth
  obtain ⟨p, hp, hplan, hbranch⟩ := hexit.visit_other rfl (by rw [onceStep_eq]; exact hexits)
  obtain ⟨n, hn, hop⟩ := children_takeChild isFragment hp
  rw [afterChild, hn, hplan]
  subst hlength
  refine h.append hnot ?_ fun _ => ?_
  · rw [hchild, Option.any_some, hstarts]
    intro hfalse
    cases hfalse
  · rw [NodePlan.branch?, hop]
    exact hbranch

theorem chained_of_starts (hstarts : child.startsCondition = true) {id : Nat} {condition : Expression}
    (hexits : (conditionStep (c.enterChild child k).afterOnce).1 = [.branch id condition])
    (hlink : IsLink k (some condition, branchBlock (depth + 1) (c.enterChild child k))) :
    Continues v.children IsLink c.frame.plan.children
      (afterChild (lowerNode .none (depth + 1)) isFragment child k c).frame.plan.children := by
  obtain ⟨c', hexit⟩ := beforeExit ha.collecting rfl hheeds depth
  obtain ⟨p, b, hp, hplan, hbranch, hlinks⟩ := hexit.visit_starts rfl (by rw [onceStep_eq]; exact hexits)
  obtain ⟨n, hn, hop⟩ := children_takeChild isFragment hp
  rw [afterChild, hn, hplan]
  subst hlength
  refine h.append (fun i hjoins => ?_) (fun _ => ⟨b, _, ?_, hlinks, hlink⟩) fun hother => ?_
  · have hjoins := hjoins.joins
    rw [hchild, Option.any_some, Visited.joinsCondition_of_starts hstarts] at hjoins
    cases hjoins
  · rw [NodePlan.branch?, hop]
    exact hbranch
  · rw [hchild, Option.any_some, hstarts] at hother
    cases hother

theorem chained_of_joins (hjoins : child.joinsCondition = true) {condition : Option Expression}
    {s : SavedBlock} {saved : List SavedBlock}
    (hexits : (conditionStep (c.enterChild child k).afterOnce).1 = [.otherwise condition])
    (hsaved : (conditionStep (c.enterChild child k).afterOnce).2.saved = s :: saved)
    (hs : s.plan.operation = none)
    (hlink : IsLink k (condition, branchBlock (depth + 1) (c.enterChild child k)))
    (hcloses : ∀ k l, IsLink k l → (l.1 = none ↔ v.children[k]?.any Visited.closesCondition = true))
    (hlooks : v.children[k - 1]?.any Visited.looksJoinable = true) {b : Branch}
    (hlast : lastBranch? c.frame.plan.children.reverse = some b) (hopen : b.isOpen = true) :
    Continues v.children IsLink c.frame.plan.children
      (afterChild (lowerNode .none (depth + 1)) isFragment child k c).frame.plan.children := by
  obtain ⟨c', hexit⟩ := beforeExit ha.collecting rfl hheeds depth
  obtain ⟨p, once, hp, hplan, hop⟩ := hexit.visit_joins rfl (by rw [onceStep_eq]; exact hexits)
    (by rw [onceStep_eq]; exact hsaved) hs
  obtain ⟨n, hn, hop'⟩ := children_takeChild isFragment hp
  obtain ⟨i, m, into, hi, hm, hidle, hmap⟩ := lastBranch?_eq_some hlast fun b => b.attach
    (.ofBranch b.id condition (branchBlock (depth + 1) (c.enterChild child k)) once)
  rw [afterChild, hn, hplan, hmap]
  subst hlength
  refine h.attach hi hm hopen ?_ (hop'.trans hop) hlink
  exact h.joins_of_last hcloses hi hm hopen hidle (by rw [hchild, Option.any_some, hjoins]) hlooks

theorem chained_afterChild (hv : c.frame.node = some v)
    (hnew : ∀ d, child.condition? = some d → (child.path, "if") ∉ c.seen)
    (hlink : ∀ d, child.condition? = some d →
      IsLink k (d.branchCondition?, branchBlock (depth + 1) (c.enterChild child k)))
    (hcloses : ∀ k l, IsLink k l → (l.1 = none ↔ v.children[k]?.any Visited.closesCondition = true)) :
    Continues v.children IsLink c.frame.plan.children
      (afterChild (lowerNode .none (depth + 1)) isFragment child k c).frame.plan.children := by
  cases hd : child.condition? with
  | none =>
    refine chained_of_other hchild ha hheeds hlength h isFragment (by rw [Visited.startsCondition, hd]; rfl)
      (fun i hjoins => ?_) (by rw [conditionStep_of_none rfl hd])
    have hjoins := hjoins.joins
    rw [hchild, Option.any_some, Visited.joinsCondition, hd] at hjoins
    cases hjoins
  | some d =>
    obtain ⟨path, tag, children, rfl⟩ := Visited.exists_of_condition hd
    have hc₁ : Collecting (c.enterChild (.node path (.element tag children)) k).afterOnce :=
      ⟨ha.collecting.collects, ha.collecting.goesOn⟩
    by_cases hname : d.name = "if"
    · have hstarts : (Visited.node path (.element tag children)).startsCondition = true := by
        rw [Visited.startsCondition, hd, Option.any_some, hname]
        rfl
      obtain ⟨id, condition, hcondition, hexits⟩ := conditionStep_of_starts hc₁ rfl hd (hnew d hd) hname
      exact chained_of_starts hchild ha hheeds hlength h isFragment hstarts hexits (hcondition ▸ hlink d hd)
    · have hjoins : (Visited.node path (.element tag children)).joinsCondition = true := by
        rw [Visited.joinsCondition, hd, Option.any_some]
        exact bne_iff_ne.mpr hname
      cases hmay : (c.enterChild (.node path (.element tag children)) k).mayJoin with
      | false =>
        refine chained_of_other hchild ha hheeds hlength h isFragment ?_ (fun i hjoins => ?_) ?_
        · rw [Visited.startsCondition, hd, Option.any_some]
          exact beq_eq_false_iff_ne.mpr hname
        · subst hlength
          have hlast := h.last_of_joins hcloses hjoins
          have hpos := hjoins.lt
          rw [(mayJoin_enterChild hv).mpr ⟨⟨by omega, hjoins.looks⟩, hlast⟩] at hmay
          cases hmay
        · rw [conditionStep_of_not hc₁ rfl hd (hnew d hd) hname hmay rfl]
      | true =>
        obtain ⟨hexits, -, s, hsaved, hs⟩ := conditionStep_of_mayJoin hc₁ rfl hd (hnew d hd) hname hmay
        obtain ⟨⟨-, hlooks⟩, b, hlast, hopen⟩ := (mayJoin_enterChild hv).mp hmay
        exact chained_of_joins hchild ha hheeds hlength h isFragment hjoins hexits hsaved hs (hlink d hd)
          hcloses hlooks hlast hopen

end

section

variable {o : LoweringOptions} (ho : o.collectErrors = true) {t : Template} {depth : Nat} {c : Context}
  (h : Arrives o t (depth + 1) c) {v : Visited}
  (hv : (beforeChildren (lowerNode .none depth) c).frame.node = some v)
  (hsource : ∀ path tag children, v ≠ .wrapped path tag children)

include ho h hv hsource

theorem fresh_child {child : Visited} (hchild : v.children[k]? = some child)
    (htext : child.isTextLike = false) :
    let arrival := comeToChild (lowerNode .none depth) v k child (beforeChildren (lowerNode .none depth) c)
    Arrived t depth arrival ∧ (child.path, "if") ∉ arrival.seen := by
  have harrived := arrived_of_arrives ho h
  obtain ⟨hvalid, hat⟩ := atChildren_of_node harrived hv
  refine ⟨hat.arrived_child harrived hvalid hchild, hat.unseen_child harrived hchild htext List.suffix_rfl ?_⟩
  exact fun heq => absurd heq (Visited.path_ne_of_child hsource (List.mem_of_getElem? hchild))

/-- The conditions among the first children are as they should be, and it does not change any more which of
them have an operation. -/
theorem chained_lowerChildren (hk : k ≤ v.children.length) :
    let c' := beforeChildren (lowerNode .none depth) c
    let plans := fun j => (lowerChildren (lowerNode .none depth) v.isFragment 0 (v.children.take j)
      c').2.frame.plan.children
    (plans k).length = k ∧ Chained v.children (IsLink depth v c') (plans k) ∧
      ∀ j ≤ k, ∀ i < j, IdleAt (plans j) i ↔ IdleAt (plans k) i := by
  have harrived := arrived_of_arrives ho h
  obtain ⟨hvalid, hat⟩ := atChildren_of_node harrived hv
  dsimp only
  induction k with
  | zero =>
    have hheeds := heeds_of_arrives .childless ho h
    have hnone := (heeds_beforeChildren .childless harrived.collecting hheeds depth).plan
    simp only [List.take_zero, lowerChildren, run_pure, hnone]
    exact ⟨rfl, .nil, fun j hj i hi => by omega⟩
  | succ k ih =>
    obtain ⟨hlength, hchained, hidle⟩ := ih (by omega)
    have hchild : v.children[k]? = some v.children[k] := List.getElem?_eq_getElem hk
    obtain ⟨d, rfl⟩ := hat.depth_pos (List.mem_of_getElem? hchild)
    have hresumed := (hat.children hchild).2
    have hnew : ∀ d', v.children[k].condition? = some d' → (v.children[k].path, "if") ∉ (lowerChildren
        (lowerNode .none (d + 1)) v.isFragment 0 (v.children.take k)
        (beforeChildren (lowerNode .none (d + 1)) c)).2.seen := by
      intro d' hd
      obtain ⟨path, tag, children, heq⟩ := Visited.exists_of_condition hd
      exact (fresh_child ho h hv hsource hchild (by rw [heq]; rfl)).2
    have hnext := chained_afterChild hchild (hat.arrived_child harrived hvalid hchild)
      (heeds_of_arrives .unbranched ho (.child h hv hchild)) hlength hchained v.isFragment
      (hresumed.node.trans hv) hnew (fun d' hd => ⟨_, d', hchild, hd, rfl⟩) fun _ _ => IsLink.closes_iff
    rw [lowerChildren_take_succ (balanced_lowerNode (d + 1)) _ hat.collecting hchild]
    refine ⟨by rw [hnext.length, hlength], hnext.chained, fun j hj i hi => ?_⟩
    rcases Nat.lt_succ_iff_lt_or_eq.mp (Nat.lt_succ_of_le hj) with hlt | rfl
    · exact (hidle j (by omega) i hi).trans (hnext.idle i (by omega))
    · rw [lowerChildren_take_succ (balanced_lowerNode (d + 1)) _ hat.collecting hchild]

end

/-! ## Insertions -/

theorem makes_insertRuns (runs : List (List Nat × RunPlace)) (c : Context) :
    (insertRuns runs c).2.frame.plan.children.map NodePlan.makes =
      c.frame.plan.children.map NodePlan.makes := by
  have hrun : ∀ run place (c : Context), (insertRun run place c).2.frame.plan.children.map NodePlan.makes =
      c.frame.plan.children.map NodePlan.makes := by
    intro run place c
    have hreference : (reference c).2.frame.plan.children = c.frame.plan.children :=
      (plain_reference.tidy c).children
    rw [← hreference]
    refine Eq.trans ?_ (NodePlan.makes_insertRun run ⟨(reference c).1, place⟩ _)
    rw [insertRun_eq]
    dsimp only
    split <;> rfl
  have hplaceholder : ∀ index (c : Context), (putPlaceholder index c).2.frame.plan.children.map
      NodePlan.makes = c.frame.plan.children.map NodePlan.makes := by
    intro index c
    rw [putPlaceholder_eq]
    exact NodePlan.makes_modify (f := NodePlan.held c.nextId) (fun _ => rfl) index _
  induction runs generalizing c with
  | nil => rfl
  | cons r runs ih =>
    obtain ⟨run, place⟩ := r
    cases place with
    | front => exact (ih _).trans (hrun _ _ _)
    | middle => exact (ih _).trans ((hrun _ _ _).trans (hplaceholder _ _))
    | back => exact (ih _).trans (hrun _ _ _)

/-! ## Elements that find no condition -/

theorem conditionStep_of_seen {path : Path} {tag : Tag} {children : List Node}
    (hv : c.frame.node = some (.node path (.element tag children))) (hseen : (path, "if") ∈ c.seen) :
    conditionStep c = ([], c) := by
  rcases conditionStep_cases hv with ⟨hstep, -⟩ | ⟨d, hd, hmarks | ⟨hmarks, -⟩⟩
  · exact hstep
  · exact absurd hseen hmarks.news
  · exact absurd hseen hmarks.news

theorem lowerNode_of_reject {path : Path} {tag : Tag} {children : List Node} {d : Directive}
    (hc : Collecting c) (hv : c.frame.node = some (.node path (.element tag children)))
    (hplan : c.frame.plan = .empty) (hnew : (path, "if") ∉ c.seen)
    (hd : (Visited.node path (.element tag children)).condition? = some d) (hname : d.name ≠ "if")
    (hmay : c.mayJoin = false) (depth : Nat) :
    (lowerNode .none (depth + 1) c).2 = (lowerNode .none (depth + 1) (c.rejectBranch path tag d)).2 := by
  have hc' : Collecting (c.rejectBranch path tag d) := ⟨hc.collects, hc.goesOn⟩
  have hc₁ : Collecting c.afterOnce := ⟨hc.collects, hc.goesOn⟩
  have hstep : conditionStep (onceStep c).2 = ([], c.afterOnce.rejectBranch path tag d) := by
    rw [onceStep_eq]
    exact conditionStep_of_not hc₁ hv hd hnew hname hmay hplan
  have hstep' : conditionStep (onceStep (c.rejectBranch path tag d)).2 =
      ([], (c.rejectBranch path tag d).afterOnce) := by
    rw [onceStep_eq]
    exact conditionStep_of_seen hv List.mem_cons_self
  rw [lowerNode_eq_body hc (by rw [hv]; rfl), lowerNode_eq_body hc' (Option.isSome_iff_exists.mpr ⟨_, hv⟩)]
  simp only [hstep, hstep']
  rfl

/-! ## The conditions among the children of a node -/

/-- What the children of the node `v` become, as to conditions. The walk turns to the children in the state
`c` and has visited them in the state `c'`. -/
structure SiblingConditions (depth : Nat) (v : Visited) (c c' : Context) : Prop where
  length : c'.frame.plan.children.length = v.children.length
  /-- A child that starts a condition stands for it. The conditions and blocks are its own and those of the
  children that join it, in their order. -/
  starts : ∀ (i : Nat) (n : NodePlan), c'.frame.plan.children[i]? = some n →
    v.children[i]?.any Visited.startsCondition = true →
    ∃ b, n.branch? = some b ∧ LinksFrom v.children (IsLink depth v c) c'.frame.plan.children i b.links
  /-- No other child stands for a condition. -/
  others : ∀ (i : Nat) (n : NodePlan), c'.frame.plan.children[i]? = some n →
    v.children[i]?.any Visited.startsCondition = false → n.branch? = none
  /-- A child joins at most one condition. -/
  unique : ∀ i i' j, Joins v.children c'.frame.plan.children i j →
    Joins v.children c'.frame.plan.children i' j → i = i'
  /-- A child that is meant to join a condition joins the one that starts right before it. -/
  afterFirst : ∀ i, v.children[i]?.any Visited.startsCondition = true →
    v.children[i + 1]?.any Visited.joinsCondition = true →
    Joins v.children c'.frame.plan.children i (i + 1)
  /-- It also joins the one that the child right before it has joined and not closed. -/
  afterNext : ∀ i j, Joins v.children c'.frame.plan.children i j →
    v.children[j]?.any Visited.closesCondition = false →
    v.children[j + 1]?.any Visited.joinsCondition = true →
    Joins v.children c'.frame.plan.children i (j + 1)
  /-- Otherwise it joins a condition only if the child right before it looks joinable, but takes no part in
  any condition. -/
  before : ∀ i j, Joins v.children c'.frame.plan.children i (j + 1) →
    i = j ∨
    Joins v.children c'.frame.plan.children i j ∧ v.children[j]?.any Visited.closesCondition = false ∨
    v.children[j]?.any Visited.looksJoinable = true ∧
      v.children[j]?.any Visited.startsCondition = false ∧
      ∀ i', ¬ Joins v.children c'.frame.plan.children i' j
  /-- A child that joins a condition is reported at most because its own condition is missing. -/
  accepted : ∀ i j path tag children d, v.children[j]? = some (.node path (.element tag children)) →
    (Visited.node path (.element tag children)).condition? = some d →
    Joins v.children c'.frame.plan.children i j →
    let arrival := comeToChild (lowerNode .none depth) v j (.node path (.element tag children)) c
    (conditionStep (onceStep arrival).2).2.errors = arrival.errors ++ d.branchErrors
  /-- A child that joins no condition though it is meant to is reported, and visited as an element whose
  condition was dealt with. -/
  rejected : ∀ j path tag children d, v.children[j]? = some (.node path (.element tag children)) →
    (Visited.node path (.element tag children)).condition? = some d → d.name ≠ "if" →
    (∀ i, ¬ Joins v.children c'.frame.plan.children i j) →
    ⟨.elseNoAdjacentIf, some tag.loc⟩ ∈ c'.errors ∧
      let arrival := comeToChild (lowerNode .none depth) v j (.node path (.element tag children)) c
      (lowerNode .none depth arrival).2 = (lowerNode .none depth (arrival.rejectBranch path tag d)).2

theorem makes_childrenStep (visit : Lower Unit) {v : Visited} (hv : c.frame.node = some v) :
    (childrenStep visit c).2.frame.plan.children.map NodePlan.makes =
      (lowerChildren visit v.isFragment 0 v.children c).2.frame.plan.children.map NodePlan.makes := by
  obtain ⟨runs, heq, -⟩ := childrenStep_eq visit hv
  rw [heq]
  exact makes_insertRuns runs _

theorem grows_visit {visit : Lower Unit} (hbalanced : Balanced visit) (hc : Collecting c)
    (hv : c.frame.node = some v) (hchild : v.children[j]? = some child) :
    Grows (visit (comeToChild visit v j child c)).2 (childrenStep visit c).2 := by
  have hrest := lowerChildren_append hbalanced v.isFragment 0 (v.children.take (j + 1))
    (v.children.drop (j + 1)) hc
  rw [List.take_append_drop, lowerChildren_take_succ hbalanced v.isFragment hc hchild] at hrest
  obtain ⟨runs, heq, -⟩ := childrenStep_eq visit hv
  rw [heq]
  refine Grows.trans ?_ ((steady_insertRuns runs).grows _)
  rw [hrest]
  exact (growing_takeChild _ _).trans ((fixed_lowerChildren hbalanced _ _ _).grows _)

section

variable {o : LoweringOptions} (ho : o.collectErrors = true) {t : Template} {depth : Nat} {c : Context}
  (h : Arrives o t (depth + 1) c) {v : Visited}
  (hv : (beforeChildren (lowerNode .none depth) c).frame.node = some v)
  (hsource : ∀ path tag children, v ≠ .wrapped path tag children)

include ho h hv hsource

theorem chained_childrenStep :
    let c' := beforeChildren (lowerNode .none depth) c
    let plans := (childrenStep (lowerNode .none depth) c').2.frame.plan.children
    plans.length = v.children.length ∧ Chained v.children (IsLink depth v c') plans ∧
      ∀ j ≤ v.children.length, ∀ i < j, IdleAt (lowerChildren (lowerNode .none depth) v.isFragment 0
        (v.children.take j) c').2.frame.plan.children i ↔ IdleAt plans i := by
  obtain ⟨hlength, hchained, hidle⟩ := chained_lowerChildren ho h hv hsource (Nat.le_refl _)
  have hmakes := makes_childrenStep (lowerNode .none depth) hv
  dsimp only at hlength hchained hidle
  rw [List.take_length] at hlength hchained
  refine ⟨?_, hchained.of_makes hmakes, fun j hj i hi => ?_⟩
  · rw [← hlength]
    simpa using congrArg List.length hmakes
  · rw [hidle j hj i hi, List.take_length, idleAt_iff, idleAt_iff, ← List.getElem?_map, ← List.getElem?_map,
      hmakes]

theorem mayJoin_iff {child : Visited} (hchild : v.children[j]? = some child)
    (hjoins : child.joinsCondition = true) :
    (comeToChild (lowerNode .none depth) v j child (beforeChildren (lowerNode .none depth) c)).mayJoin = true ↔
      ∃ i, Joins v.children (childrenStep (lowerNode .none depth)
        (beforeChildren (lowerNode .none depth) c)).2.frame.plan.children i j := by
  obtain ⟨-, -, hidle⟩ := chained_childrenStep ho h hv hsource
  have hlt := (List.getElem?_eq_some_iff.mp hchild).1
  obtain ⟨hlength, hchained, -⟩ := chained_lowerChildren ho h hv hsource (Nat.le_of_lt hlt)
  dsimp only at hlength hchained
  obtain ⟨-, hat⟩ := atChildren_of_node (arrived_of_arrives ho h) hv
  rw [comeToChild, mayJoin_enterChild ((hat.children hchild).2.node.trans hv)]
  constructor
  · rintro ⟨⟨-, hlooks⟩, b, hlast, hopen⟩
    obtain ⟨i, n, into, hi, hn, hbehind, -⟩ := lastBranch?_eq_some hlast id
    have hjoins' := hchained.joins_of_last (fun _ _ => IsLink.closes_iff) hi hn hopen hbehind
      (by rw [hlength, hchild, Option.any_some, hjoins]) (by rw [hlength]; exact hlooks)
    rw [hlength] at hjoins'
    exact ⟨i, hjoins'.of_idle fun k hk => (hidle j (Nat.le_of_lt hlt) k hk).mp⟩
  · rintro ⟨i, hi⟩
    have hpos := hi.lt
    have hi' := hi.of_idle fun k hk => (hidle j (Nat.le_of_lt hlt) k hk).mpr
    refine ⟨⟨by omega, hi.looks⟩, hchained.last_of_joins (i := i) (fun _ _ => IsLink.closes_iff) ?_⟩
    rw [hlength]
    exact hi'

/-- Whenever the walk has visited the children of a node of the template, the conditions among them are as
they should be. -/
theorem conditions_follow_siblings : SiblingConditions depth v (beforeChildren (lowerNode .none depth) c)
    (childrenStep (lowerNode .none depth) (beforeChildren (lowerNode .none depth) c)).2 := by
  obtain ⟨hlength, hchained, -⟩ := chained_childrenStep ho h hv hsource
  have hbound : ∀ {i j : Nat}, Joins v.children (childrenStep (lowerNode .none depth)
      (beforeChildren (lowerNode .none depth) c)).2.frame.plan.children i j → j < v.children.length := by
    intro i j hjoins
    obtain ⟨child, hchild, -⟩ := (Option.any_eq_true _ _).mp hjoins.joins
    exact (List.getElem?_eq_some_iff.mp hchild).1
  refine
    { length := hlength
      starts := hchained.starts
      others := hchained.others
      unique := fun i i' j hj hj' => ?_
      afterFirst := fun i hstarts hjoins => Chained.joins_of_starts hstarts hjoins
      afterNext := fun i j hj hcloses hjoins => hchained.joins_of_joins hj hcloses hjoins
      before := fun i j hj => ?_
      accepted := ?_
      rejected := ?_ }
  · have hlt := hbound hj
    have hi := hj.lt
    have hi' := hj'.lt
    exact hchained.unique (by omega) (by omega) hj hj' hi hi'
  · have hlt := hbound hj
    exact hchained.before_joins (by omega) hj
  · intro i j path tag children d hchild hd hij
    have hjoins := hij.joins
    rw [hchild, Option.any_some] at hjoins
    have hmay := (mayJoin_iff ho h hv hsource hchild hjoins).mpr ⟨i, hij⟩
    have hname : d.name ≠ "if" := by
      rw [Visited.joinsCondition, hd, Option.any_some] at hjoins
      exact bne_iff_ne.mp hjoins
    obtain ⟨ha, hnew⟩ := fresh_child ho h hv hsource hchild rfl
    have hc₁ : Collecting (comeToChild (lowerNode .none depth) v j (.node path (.element tag children))
        (beforeChildren (lowerNode .none depth) c)).afterOnce :=
      ⟨ha.collecting.collects, ha.collecting.goesOn⟩
    dsimp only
    rw [onceStep_eq]
    exact (conditionStep_of_mayJoin hc₁ rfl hd hnew hname hmay).2.1
  · intro j path tag children d hchild hd hname hnot
    have hjoins : (Visited.node path (.element tag children)).joinsCondition = true := by
      rw [Visited.joinsCondition, hd, Option.any_some]
      exact bne_iff_ne.mpr hname
    have hmay := mt (mayJoin_iff ho h hv hsource hchild hjoins).mp (not_exists.mpr hnot)
    rw [Bool.not_eq_true] at hmay
    obtain ⟨ha, hnew⟩ := fresh_child ho h hv hsource hchild rfl
    obtain ⟨-, hat⟩ := atChildren_of_node (arrived_of_arrives ho h) hv
    obtain ⟨e, rfl⟩ := hat.depth_pos (List.mem_of_getElem? hchild)
    have hsame := lowerNode_of_reject ha.collecting rfl rfl hnew hd hname hmay e
    refine ⟨?_, hsame⟩
    have hgrows := grows_visit (balanced_lowerNode (e + 1)) hat.collecting hv hchild
    refine hgrows.errors.subset ?_
    rw [hsame]
    refine ((balanced_lowerNode (e + 1)).grows _).errors.subset ?_
    exact List.mem_append_right _ List.mem_cons_self

end

/-- The second branch of a condition stands right behind the first. -/
theorem conditions_follow_siblings_pair :
    let item := fun name value => TagItem.attribute ⟨name, none, .stub, value, .stub⟩
    let first : Node := .element ⟨"a", .element, [item "v-if" (some ⟨"x", false, .stub⟩)], true, .stub⟩ []
    let second : Node := .element ⟨"b", .element, [item "v-else" none], true, .stub⟩ []
    let t : Template := ⟨"", [first, second], .stub⟩
    let c := Context.ofTemplate ⟨true, fun _ => false⟩ t
    Arrives ⟨true, fun _ => false⟩ t 6 c ∧
      (beforeChildren (lowerNode .none 5) c).frame.node = some (.root t) ∧
      Joins (Visited.root t).children (childrenStep (lowerNode .none 5)
        (beforeChildren (lowerNode .none 5) c)).2.frame.plan.children 0 1 := by
  intro item first second t c
  have harrives : Arrives ⟨true, fun _ => false⟩ t 6 c := .start
  have hnode : (beforeChildren (lowerNode .none 5) c).frame.node = some (.root t) :=
    node_ofTemplate rfl 5 rfl
  have hconditions := conditions_follow_siblings rfl harrives hnode (fun _ _ _ h => nomatch h)
  have hfirst : (Visited.root t).children[0]?.any Visited.startsCondition = true := by decide +kernel
  have hsecond : (Visited.root t).children[0 + 1]?.any Visited.joinsCondition = true := by decide +kernel
  have hjoins := hconditions.afterFirst 0 hfirst hsecond
  rw [Nat.zero_add] at hjoins
  exact ⟨harrives, hnode, hjoins⟩

/-- An element is attached to a condition although the one right before it is not, since that one only looks
joinable: it is reported itself because a node stands between it and the condition. -/
theorem branch_attached_across_siblings :
    let item := fun name value => TagItem.attribute ⟨name, none, .stub, value, .stub⟩
    let place := fun offset => (⟨⟨offset, 1, offset + 1⟩, ⟨offset, 1, offset + 1⟩, ""⟩ : Location)
    let element := fun name items offset => Node.element ⟨name, .element, items, true, place offset⟩ []
    let t : Template := ⟨"", [element "a" [item "v-if" (some ⟨"x", false, .stub⟩)] 0, element "p" [] 1,
      element "b" [item "v-else-if" (some ⟨"y", false, .stub⟩)] 2, element "i" [item "v-else" none] 3], .stub⟩
    let c := t.lower ⟨true, fun _ => false⟩ .none
    c.errors = [⟨.elseNoAdjacentIf, some (place 2)⟩] ∧
      c.frame.plan.children.map (fun n => n.branch?.map fun b => b.links.map fun l => l.2.loc) =
        [some [place 0, place 3], none, none, none] := by
  decide +kernel

end Lower

end JsxTemplate
