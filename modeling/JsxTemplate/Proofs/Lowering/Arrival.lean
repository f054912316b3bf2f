import JsxTemplate.Proofs.Lowering.Around
import JsxTemplate.Proofs.Lowering.Gathering

/-!
# Where the walk comes to

The states in which the walk over a template comes to a node (`Arrives`): to the template itself, to a
child after those before it, and to an element inside an expression after those before it. When the walk
comes to a node that is no wrapped element, nothing has been done for it or below it.
-/

namespace JsxTemplate

variable {c : Context} {p : Path × String} {v child s r : Visited} {index depth : Nat}
  {vs : List Visited}

/-! ## What a visit concerns -/

/-- Whether nothing was marked at or below a node between two states, other than that a text or expression
belongs to a group. -/
def SparedBelow (s : Visited) (c c' : Context) : Prop :=
  ∀ p : Path × String, s.path <:+ p.1 → (s.isTextLike = true → p ≠ (s.path, Lower.textPurpose)) →
    p ∉ c.seen → p ∉ c'.seen

/-- Whether a mark is not set before a node is visited. -/
def IsAhead (s : Visited) (p : Path × String) : Prop :=
  s.path <:+ p.1 ∧ (p.1 = s.path → s.isTextLike = false ∧ p.2 = Lower.textPurpose)

theorem IsAhead.not_own (h : IsAhead s p) (htext : s.isTextLike = true) :
    p ≠ (s.path, Lower.textPurpose) := by
  intro heq
  rw [(h.2 (congrArg Prod.fst heq)).1] at htext
  cases htext

theorem Visited.isTextLike_of_child {v child : Visited} (h : child ∈ v.children) : v.isTextLike = false := by
  match v, h with
  | .root _, _ | .wrapped _ _ _, _ => rfl
  | .node _ (.element _ _), _ | .node _ (.fragment _ _), _ => rfl
  | .node _ (.text _ _), h | .node _ (.expression _ _ _), h => cases h

theorem Visited.isTextLike_of_isText (h : v.isText = true) : v.isTextLike = true := by
  obtain ⟨path, content, loc, rfl⟩ := Visited.exists_of_isText h
  rfl

theorem Visited.eq_of_below {v s s' : Visited} {i j : Nat} (hs : v.children[i]? = some s)
    (hs' : v.children[j]? = some s') {q : Path} (hq : s.path <:+ q) (hq' : s'.path <:+ q) : i = j := by
  have hapart := List.pairwise_iff_getElem.mp v.children_apart
  obtain ⟨hi, rfl⟩ := List.getElem?_eq_some_iff.mp hs
  obtain ⟨hj, rfl⟩ := List.getElem?_eq_some_iff.mp hs'
  rcases Nat.lt_trichotomy i j with hlt | heq | hgt
  · exact absurd hq' (hapart i j hi hj hlt q hq)
  · exact heq
  · exact absurd hq (hapart j i hj hi hgt q hq')

namespace Lower

variable {k : Nat}

theorem reach_of_other (hv : c.frame.node = some v) (htext : v.isTextLike = false) : c.reach = [v] := by
  simp [Context.reach, hv, htext]

theorem group_of_other (hv : c.frame.node = some v) (htext : v.isTextLike = false) : c.group = [] := by
  have hexp : v.isExpression = false := by
    match v, htext with
    | .root _, _ | .wrapped _ _ _, _ | .node _ (.element _ _), _ | .node _ (.fragment _ _), _ => rfl
  simp [Context.group, hv, hexp]

theorem mem_textsBeforeExpressions_iff :
    s ∈ textsBeforeExpressions vs ↔
      ∃ i : Nat, vs[i]? = some s ∧ s.isText = true ∧ vs[i + 1]?.any Visited.isExpression = true := by
  fun_induction textsBeforeExpressions vs with
  | case1 a b rest ih =>
    rw [List.mem_append, ih]
    constructor
    · rintro (h | ⟨i, h⟩)
      · split at h
        · next hab =>
          obtain rfl := List.mem_singleton.mp h
          exact ⟨0, rfl, Bool.and_eq_true_iff.mp hab⟩
        · cases h
      · exact ⟨i + 1, h⟩
    · rintro ⟨i, hs, htext, hexp⟩
      cases i with
      | zero =>
        obtain rfl := Option.some.inj hs
        have hexp : b.isExpression = true := hexp
        left
        rw [htext, hexp]
        exact List.mem_singleton_self a
      | succ i => exact Or.inr ⟨i, hs, htext, hexp⟩
  | case2 vs hshort =>
    refine ⟨fun h => absurd h List.not_mem_nil, fun ⟨i, hs, _, hexp⟩ => ?_⟩
    match vs, i with
    | a :: b :: rest, _ => exact absurd rfl (hshort a b rest)
    | [a], i => simp at hexp
    | [], i => simp at hs

theorem isTextLike_of_mem_groupAt (h : s ∈ groupAt vs index) : s.isTextLike = true := by
  rcases List.mem_append.mp h with h | h
  · split at h
    · simp at h
    · exact Visited.isTextLike_of_isText (List.mem_filter.mp h).2
  · exact List.all_eq_true.mp List.all_takeWhile s h

theorem marks_groupValues {nodes : List Visited} (hp : p ∈ (groupValues nodes c).2.seen) :
    p ∈ c.seen ∨ ∃ s ∈ nodes, p = (s.path, textPurpose) := by
  obtain ⟨seen, heq, -, hnew⟩ := groupValues_eq nodes c
  rw [heq] at hp
  exact hnew p hp

theorem seen_prepareContainer (children : List Visited) (c : Context) :
    (prepareContainer children c).2.seen = (groupValues children c).2.seen := by
  rw [prepareContainer, run_bind]
  split
  · exact reference_seen _
  · cases (groupValues children c).1.mapM Expression.literal? with
    | some literals => rfl
    | none =>
      simp only [run_bind, run_pure]
      exact ((plain_addEffect _ (.of_ne (by simp))).tidy _).toStill.seen.trans (reference_seen _)

theorem seen_prepareExpression {u : Visited} (hu : c.outer.head?.bind Frame.node = some u) :
    (prepareExpression c).2.seen = (groupValues (groupAt u.children c.frame.index) c).2.seen := by
  have hparent : parentNode c = (some u, c) := by rw [← hu]; rfl
  have hindex : index c = (c.frame.index, c) := rfl
  rw [prepareExpression, run_bind, hparent]
  simp only [run_bind, hindex]
  split
  · rfl
  · exact reference_seen _

theorem marks_prepareText (hv : c.frame.node = some v) (hp : p ∈ (prepareText c).2.seen) :
    p ∈ c.seen ∨ ∃ s, (s ∈ c.group ∨ s ∈ v.children) ∧ s.isTextLike = true ∧ p = (s.path, textPurpose) := by
  rcases prepareText_cases hv with ⟨-, hseen, -⟩ | ⟨-, heq⟩ | ⟨-, heq, u, hu, -, hgroup⟩
  · exact Or.inl (hseen ▸ hp)
  · rw [heq] at hp
    unfold prepareChildren at hp
    dsimp only at hp
    split at hp
    · split at hp
      · next hall =>
        have hall := List.all_eq_true.mp (Bool.and_eq_true_iff.mp hall).2
        rw [seen_prepareContainer] at hp
        refine (marks_groupValues hp).imp_right ?_
        rintro ⟨s, hs, heq⟩
        exact ⟨s, Or.inr hs, hall s hs, heq⟩
      · obtain ⟨seen, heq, -, -, hnew⟩ := markAllSeen_eq (textsBeforeExpressions v.children) c
        rw [run_bind, heq] at hp
        refine (hnew p hp).imp_right ?_
        rintro ⟨s, hs, heq⟩
        obtain ⟨i, hs, htext, -⟩ := mem_textsBeforeExpressions_iff.mp hs
        exact ⟨s, Or.inr (List.mem_of_getElem? hs), Visited.isTextLike_of_isText htext, heq⟩
    · exact Or.inl hp
  · rw [heq, seen_prepareExpression hu] at hp
    rw [hgroup]
    refine (marks_groupValues hp).imp_right ?_
    rintro ⟨s, hs, heq⟩
    exact ⟨s, Or.inl hs, isTextLike_of_mem_groupAt hs, heq⟩

theorem below_of_mem_nestedRoots (hr : r ∈ nestedRoots vs) : ∃ s ∈ vs, ∃ i, r.path = i :: s.path := by
  obtain ⟨path, e, roots, loc, n, i, hv, -, rfl⟩ := mem_nestedRoots hr
  exact ⟨_, hv, i, rfl⟩

theorem below_of_mem_prepareText {v r : Visited} (hv : c.frame.node = some v)
    (hr : r ∈ (prepareText c).1.roots) : ∃ s ∈ c.reach, s.path <:+ r.path ∧ r.path ≠ s.path := by
  have hlonger : ∀ {p q : Path} {i : Nat}, p <:+ q → p <:+ i :: q ∧ i :: q ≠ p := by
    intro p q i h
    refine ⟨h.trans (List.suffix_cons i q), ?_⟩
    rintro rfl
    have hlen := h.length_le
    simp only [List.length_cons] at hlen
    omega
  rcases prepareText_roots hv with ⟨htext, hnone | ⟨hroots, -⟩⟩ | ⟨-, hnone | hroots, -⟩
  · simp [hnone] at hr
  · rw [hroots] at hr
    obtain ⟨s, hs, i, hpath⟩ := below_of_mem_nestedRoots hr
    refine ⟨v, by rw [reach_of_other hv htext]; exact List.mem_singleton_self v, ?_⟩
    rw [hpath]
    exact hlonger (Visited.suffix_of_child hs)
  · simp [hnone] at hr
  · rw [hroots] at hr
    obtain ⟨s, hs, i, hpath⟩ := below_of_mem_nestedRoots hr
    refine ⟨s, hs, ?_⟩
    rw [hpath]
    exact hlonger (List.suffix_refl _)

theorem isTextLike_of_mem_prepareText (hr : r ∈ (prepareText c).1.roots) : r.isTextLike = false := by
  obtain ⟨v, -, hr | ⟨-, _, _, -, -, hr⟩⟩ := rootsAmong_prepareText c r hr
  all_goals
    obtain ⟨path, e, roots, loc, n, i, -, -, rfl⟩ := mem_nestedRoots hr
    cases n <;> rfl

/-! ## Runs of texts and expressions -/

theorem mem_takeWhile_iff {α : Type} {p : α → Bool} {xs : List α} {x : α} :
    x ∈ xs.takeWhile p ↔
      ∃ a : Nat, xs[a]? = some x ∧ ∀ l, l ≤ a → ∀ y, xs[l]? = some y → p y = true := by
  induction xs with
  | nil => simp
  | cons y ys ih =>
    constructor
    · intro hx
      rw [List.takeWhile_cons] at hx
      split at hx
      · next hy =>
        rcases List.mem_cons.mp hx with rfl | hx
        · refine ⟨0, rfl, fun l hl z hz => ?_⟩
          obtain rfl : l = 0 := Nat.le_zero.mp hl
          exact Option.some.inj hz ▸ hy
        · obtain ⟨a, ha, hall⟩ := ih.mp hx
          refine ⟨a + 1, ha, fun l hl z hz => ?_⟩
          cases l with
          | zero => exact Option.some.inj hz ▸ hy
          | succ l => exact hall l (Nat.le_of_succ_le_succ hl) z hz
      · cases hx
    · rintro ⟨a, ha, hall⟩
      rw [List.takeWhile_cons, if_pos (hall 0 (Nat.zero_le _) y rfl)]
      cases a with
      | zero => exact Option.some.inj ha ▸ List.mem_cons_self
      | succ a =>
        refine List.mem_cons_of_mem _ (ih.mpr ⟨a, ha, fun l hl z hz => ?_⟩)
        exact hall (l + 1) (Nat.succ_le_succ hl) z hz

/-- Whether all nodes between two indices are texts and expressions. -/
def TextRun (vs : List Visited) (i j : Nat) : Prop :=
  ∀ l, i ≤ l → l ≤ j → ∀ s, vs[l]? = some s → s.isTextLike = true

theorem mem_run_iff :
    s ∈ (vs.drop k).takeWhile Visited.isTextLike ↔ ∃ a, k ≤ a ∧ vs[a]? = some s ∧ TextRun vs k a := by
  simp only [mem_takeWhile_iff, List.getElem?_drop]
  constructor
  · rintro ⟨a, ha, hall⟩
    refine ⟨k + a, Nat.le_add_right _ _, ha, fun l hkl hla w hw => ?_⟩
    exact hall (l - k) (by omega) w (by rwa [Nat.add_sub_cancel' hkl])
  · rintro ⟨a, hka, ha, hall⟩
    refine ⟨a - k, by rwa [Nat.add_sub_cancel' hka], fun l hl w hw => ?_⟩
    exact hall (k + l) (Nat.le_add_right _ _) (by omega) w hw

theorem mem_reach_enterChild {v child s : Visited} (hv : c.frame.node = some v)
    (hs : s ∈ (c.enterChild child k).reach) :
    (child.isTextLike = false ∧ s = child) ∨
      (child.path, textPurpose) ∉ c.seen ∧
        ∃ a, k ≤ a ∧ v.children[a]? = some s ∧ TextRun v.children k a := by
  cases htext : child.isTextLike with
  | false =>
    rw [reach_of_other (v := child) rfl htext, List.mem_singleton] at hs
    exact Or.inl ⟨rfl, hs⟩
  | true =>
    have hreach : (c.enterChild child k).reach =
        if child.isExpression && !c.seen.contains (child.path, textPurpose) then
          (v.children.drop k).takeWhile Visited.isTextLike else [] := by
      simp only [Context.reach, Context.enterChild, Frame.ofNode, htext, if_true, List.head?_cons,
        Option.bind_some, hv, Option.elim_some]
    rw [hreach] at hs
    split at hs
    · next hexp =>
      have hunseen : (child.path, textPurpose) ∉ c.seen := by simpa using (Bool.and_eq_true_iff.mp hexp).2
      exact Or.inr ⟨hunseen, mem_run_iff.mp hs⟩
    · cases hs

/-! ## What a visit leaves alone -/

/-- Whether a path is not below any node that a visit concerns. -/
def Apart (q : Path) (c : Context) : Prop := ∀ s ∈ c.reach, ¬ s.path <:+ q

/-- Whether a visit leaves alone what it does not concern. -/
def Sparing (visit : Lower Unit) : Prop :=
  ∀ c v p, Collecting c → c.frame.node = some v → Apart p.1 c →
    (∀ s ∈ c.group, (s.path, textPurpose) ≠ p) → p ∉ c.seen → p ∉ (visit c).2.seen

theorem unseen_prepareText (hv : c.frame.node = some v) (hapart : Apart p.1 c)
    (hgroup : ∀ s ∈ c.group, (s.path, textPurpose) ≠ p) (h : p ∉ c.seen) :
    p ∉ (prepareText c).2.seen := by
  intro hp
  rcases marks_prepareText hv hp with hp | ⟨s, hs | hs, -, rfl⟩
  · exact h hp
  · exact hgroup s hs rfl
  · refine hapart v ?_ (Visited.suffix_of_child hs)
    rw [reach_of_other hv (Visited.isTextLike_of_child hs)]
    exact List.mem_singleton_self v

section

variable {visit : Lower Unit} (hsparing : Sparing visit) (hbalanced : Balanced visit)

include hsparing hbalanced

theorem unseen_nestedBlocks {roots : List Visited} (htext : ∀ r ∈ roots, r.isTextLike = false)
    (hroots : ∀ r ∈ roots, ¬ r.path <:+ p.1) (hc : Collecting c) (h : p ∉ c.seen) :
    p ∉ (nestedBlocks visit roots c).2.seen := by
  induction roots generalizing c with
  | nil => exact h
  | cons r roots ih =>
    have hr := htext r List.mem_cons_self
    have hapart : Apart p.1 (enterNested r c) := by
      rw [Apart, reach_of_other (v := r) rfl hr]
      simpa using hroots r List.mem_cons_self
    have hvisit := hsparing (enterNested r c) r p ((grows_enterNested r c).collecting hc) rfl hapart
      (by simp [group_of_other (c := enterNested r c) (v := r) rfl hr]) h
    have hafter : p ∉ (afterNested visit r c).seen := by
      have hexit := (hushed_exitBlock (visit (enterNested r c)).2).seen
      rw [← hexit] at hvisit
      rwa [afterNested, popFrame_run]
    rw [nestedBlocks_collecting hbalanced hc]
    exact ih (fun s hs => htext s (List.mem_cons_of_mem _ hs)) (fun s hs => hroots s (List.mem_cons_of_mem _ hs))
      ((resumed_afterNested hbalanced hc r).grows.collecting hc) hafter

theorem unseen_textStep (hv : c.frame.node = some v) (hapart : Apart p.1 c)
    (hgroup : ∀ s ∈ c.group, (s.path, textPurpose) ≠ p) (hc : Collecting c) (h : p ∉ c.seen) :
    p ∉ (textStep visit c).2.seen := by
  have hc' := (does_prepareText.grows c).collecting hc
  have hroots : ∀ r ∈ (prepareText c).1.roots, ¬ r.path <:+ p.1 := by
    intro r hr hsuffix
    obtain ⟨s, hs, hbelow, -⟩ := below_of_mem_prepareText hv hr
    exact hapart s hs (hbelow.trans hsuffix)
  have hnested := unseen_nestedBlocks hsparing hbalanced (fun r => isTextLike_of_mem_prepareText) hroots
    hc' (unseen_prepareText hv hapart hgroup h)
  have hfinish := ((steady_finishText (prepareText c).1
    (nestedBlocks visit (prepareText c).1.roots (prepareText c).2).1).still
    (nestedBlocks visit (prepareText c).1.roots (prepareText c).2).2).seen
  rw [← hfinish] at hnested
  rwa [textStep]

end

theorem seen_takeChild (isFragment : Bool) (c : Context) : (takeChild isFragment c).2.seen = c.seen := by
  cases isFragment with
  | false =>
    simp only [takeChild, Bool.false_eq_true, if_false, run_bind, popFrame_run, addChild, modifyFrame, run_modify]
  | true =>
    simp only [takeChild, if_true, run_bind, popFrame_run, addChild, modifyFrame, run_modify]
    exact (steady_addToBlock.still c).seen

theorem mem_children_of_mem_reach {v child s : Visited} (hv : c.frame.node = some v)
    (hchild : child ∈ v.children) (hs : s ∈ (c.enterChild child index).reach) : s ∈ v.children := by
  rcases mem_reach_enterChild hv hs with ⟨-, rfl⟩ | ⟨-, a, -, ha, -⟩
  · exact hchild
  · exact List.mem_of_getElem? ha

theorem mem_children_of_mem_group {v child s : Visited} (hv : c.frame.node = some v)
    (hs : s ∈ (c.enterChild child index).group) : s ∈ v.children ∧ s.isTextLike = true := by
  have hgroup : (c.enterChild child index).group = if child.isExpression &&
      !c.seen.contains (child.path, textPurpose) then groupAt v.children index else [] := by
    simp only [Context.group, Context.enterChild, Frame.ofNode, List.head?_cons, Option.bind_some, hv,
      Option.elim_some]
  rw [hgroup] at hs
  split at hs
  · exact ⟨mem_of_mem_groupAt hs, isTextLike_of_mem_groupAt hs⟩
  · cases hs

section

variable {visit : Lower Unit} (hsparing : Sparing visit)

include hsparing

theorem unseen_afterChild {isFragment : Bool} (hc : Collecting c)
    (hapart : Apart p.1 (c.enterChild child index))
    (hgroup : ∀ s ∈ (c.enterChild child index).group, (s.path, textPurpose) ≠ p) (h : p ∉ c.seen) :
    p ∉ (afterChild visit isFragment child index c).seen := by
  rw [afterChild, seen_takeChild]
  exact hsparing (c.enterChild child index) child p ((grows_enterChild child index c).collecting hc) rfl
    hapart hgroup h

theorem unseen_lowerChildren (hbalanced : Balanced visit) (hq : ¬ v.path <:+ p.1) (isFragment : Bool)
    (index : Nat) {children : List Visited} (hsub : ∀ s ∈ children, s ∈ v.children) (hc : Collecting c)
    (hv : c.frame.node = some v) (h : p ∉ c.seen) :
    p ∉ (lowerChildren visit isFragment index children c).2.seen := by
  induction children generalizing index c with
  | nil => exact h
  | cons child children ih =>
    have hresumed := resumed_afterChild hbalanced hc isFragment child index
    have hbelow : ∀ {s}, s ∈ v.children → ¬ s.path <:+ p.1 := fun hs hsuffix =>
      hq ((Visited.suffix_of_child hs).trans hsuffix)
    have hapart : Apart p.1 (c.enterChild child index) := fun s hs =>
      hbelow (mem_children_of_mem_reach hv (hsub child List.mem_cons_self) hs)
    have hgroup : ∀ s ∈ (c.enterChild child index).group, (s.path, textPurpose) ≠ p := by
      rintro s hs rfl
      exact hbelow (mem_children_of_mem_group hv hs).1 (List.suffix_refl _)
    rw [lowerChildren_collecting hbalanced hc]
    exact ih (index + 1) (fun s hs => hsub s (List.mem_cons_of_mem _ hs)) (hresumed.grows.collecting hc)
      (hresumed.node.trans hv) (unseen_afterChild hsparing hc hapart hgroup h)

end

theorem referenceStep_of_other
    (h : ∀ path tag children, c.frame.node ≠ some (.node path (.element tag children))) :
    referenceStep c = ([], c) := by
  rw [referenceStep, run_bind, run_node]
  rcases hv : c.frame.node with _ | _ | ⟨path, ⟨tag, children⟩ | _ | _ | _⟩ | _
  case some.node.element => exact absurd hv (h path tag children)
  all_goals rfl

theorem approach_of_other
    (h : ∀ path tag children, c.frame.node ≠ some (.node path (.element tag children))) :
    (approach c).2 = c := by
  have honce : onceStep c = ([], c) := by
    rw [onceStep, run_bind, run_node]
    rcases hv : c.frame.node with _ | _ | ⟨path, ⟨tag, children⟩ | _ | _ | _⟩ | _
    case some.node.element => exact absurd hv (h path tag children)
    all_goals rfl
  simp only [approach, run_bind, honce, conditionStep_of_other h, loopStep_of_other h,
    referenceStep_of_other h]
  rfl

theorem isTextLike_wrapped {v v' : Visited} (h : v' = v ∨ ∃ path tag children,
    v = .node path (.element tag children) ∧ v' = .wrapped path tag children) :
    v'.isTextLike = v.isTextLike ∧ v'.path = v.path := by
  rcases h with rfl | ⟨path, tag, children, rfl, rfl⟩
  · exact ⟨rfl, rfl⟩
  · exact ⟨rfl, rfl⟩

theorem not_element_of_isTextLike (hv : c.frame.node = some v) (htext : v.isTextLike = true) :
    ∀ path tag children, c.frame.node ≠ some (.node path (.element tag children)) := by
  intro path tag children heq
  obtain rfl := Option.some.inj (hv.symm.trans heq)
  cases htext

theorem apart_approach (hv : c.frame.node = some v) (hapart : Apart p.1 c)
    (hgroup : ∀ s ∈ c.group, (s.path, textPurpose) ≠ p) (h : p ∉ c.seen) :
    Apart p.1 (approach c).2 ∧ (∀ s ∈ (approach c).2.group, (s.path, textPurpose) ≠ p) ∧
      p ∉ (approach c).2.seen := by
  cases htext : v.isTextLike with
  | true =>
    rw [approach_of_other (not_element_of_isTextLike hv htext)]
    exact ⟨hapart, hgroup, h⟩
  | false =>
    have hnears := nears_approach c
    obtain ⟨v₁, hv₁, -, hkind⟩ := hnears.node v hv
    obtain ⟨htext₁, hpath⟩ := isTextLike_wrapped hkind
    rw [Apart, reach_of_other hv htext, List.forall_mem_singleton] at hapart
    refine ⟨?_, by simp [group_of_other hv₁ (htext₁.trans htext)], fun hm => ?_⟩
    · rw [Apart, reach_of_other hv₁ (htext₁.trans htext), List.forall_mem_singleton, hpath]
      exact hapart
    · rcases hnears.seen v hv _ hm with hm | ⟨hm, -⟩
      · exact h hm
      · exact hapart (hm ▸ List.suffix_refl _)

theorem seen_exitElement (cursor : Cursor) (c : Context) : (exitElement .none cursor c).2.seen = c.seen := by
  by_cases h : ∃ path tag children, c.frame.node = some (.node path (.element tag children)) ∧
      tag.type ≠ .template
  · obtain ⟨path, tag, children, hnode, ht⟩ := h
    exact (exitElement_of_element hnode ht cursor).seen
  · rw [exitElement_of_other fun path tag children hnode => by
      by_contra ht
      exact h ⟨path, tag, children, hnode, ht⟩]

theorem sparing_lowerNode (depth : Nat) : Sparing (lowerNode .none depth) := by
  induction depth with
  | zero => exact fun _ _ _ _ _ _ _ h => h
  | succ depth ih =>
    intro c v p hc hv hapart hgroup h
    have hbalanced := balanced_lowerNode depth
    obtain ⟨c₁, c₂, c₃, c₄, c₅, hcourse⟩ := course_lowerNode hc (by rw [hv]; rfl) depth
    have hnears : Nears c c₁ := hcourse.comes ▸ nears_approach c
    obtain ⟨v₁, hv₁, -, -⟩ := hnears.node v hv
    obtain ⟨hapart₁, hgroup₁, h₁⟩ := apart_approach hv hapart hgroup h
    rw [← hcourse.comes] at hapart₁ hgroup₁ h₁
    have h₂ : p ∉ c₂.seen :=
      hcourse.texts ▸ unseen_textStep ih hbalanced hv₁ hapart₁ hgroup₁ hcourse.collecting.1 h₁
    have h₃ : p ∉ c₃.seen := hcourse.slots.seen ▸ h₂
    have hv₃ := hcourse.node.1.trans hv₁
    have h₄ : p ∉ c₄.seen := by
      rw [hcourse.children]
      cases htext : v₁.isTextLike with
      | true =>
        rwa [childrenStep_of_isTextLike _ fun w hw => Option.some.inj (hv₃.symm.trans hw) ▸ htext]
      | false =>
        obtain ⟨runs, heq, -⟩ := childrenStep_eq (lowerNode .none depth) hv₃
        rw [heq, ((steady_insertRuns runs).still _).seen]
        refine unseen_lowerChildren ih hbalanced ?_ _ 0 (fun _ hs => hs) hcourse.collecting.2 hv₃ h₃
        refine hapart₁ v₁ ?_
        rw [reach_of_other hv₁ htext]
        exact List.mem_singleton_self v₁
    obtain ⟨cursor, hends⟩ := hcourse.ends
    rw [hends.seen, seen_exitElement cursor c₅, hcourse.leaves.seen]
    exact h₄

/-! ## Going through children -/

theorem lowerChildren_append {visit : Lower Unit} (hbalanced : Balanced visit) (isFragment : Bool)
    (index : Nat) (before after : List Visited) (hc : Collecting c) :
    (lowerChildren visit isFragment index (before ++ after) c).2 =
      (lowerChildren visit isFragment (index + before.length) after
        (lowerChildren visit isFragment index before c).2).2 := by
  induction before generalizing index c with
  | nil => rfl
  | cons child before ih =>
    have hc' := (resumed_afterChild hbalanced hc isFragment child index).grows.collecting hc
    rw [List.cons_append, lowerChildren_collecting hbalanced hc, lowerChildren_collecting hbalanced hc,
      ih (index + 1) hc', List.length_cons, Nat.add_right_comm, Nat.add_assoc]

theorem lowerChildren_take_succ {visit : Lower Unit} (hbalanced : Balanced visit) (isFragment : Bool)
    {children : List Visited} (hc : Collecting c) (hchild : children[k]? = some child) :
    (lowerChildren visit isFragment 0 (children.take (k + 1)) c).2 =
      afterChild visit isFragment child k (lowerChildren visit isFragment 0 (children.take k) c).2 := by
  have hlower := lowerChildren_append hbalanced isFragment 0 (children.take k) [child] hc
  have hc' := ((fixed_lowerChildren hbalanced isFragment 0 (children.take k)).grows c).collecting hc
  have hlt := (List.getElem?_eq_some_iff.mp hchild).1
  rw [List.length_take, Nat.min_eq_left (Nat.le_of_lt hlt), Nat.zero_add,
    lowerChildren_collecting hbalanced hc'] at hlower
  rw [List.take_add_one, hchild]
  exact hlower

/-- The children from the index `k` on after those before it have been visited: nothing was done at them
since the state `base`, except in texts and expressions that belong to a group, which are marked. -/
structure AheadFrom (vs : List Visited) (k : Nat) (base c : Context) : Prop where
  other : ∀ j s, k ≤ j → vs[j]? = some s → s.isTextLike = false → SparedBelow s base c
  run : ∀ i j s s', k ≤ i → i ≤ j → vs[i]? = some s → vs[j]? = some s' → TextRun vs i j →
    SparedBelow s' base c ∨ (s.path, textPurpose) ∈ c.seen

theorem marked_of_mem_reach (hc : Collecting c) (hv : c.frame.node = some v)
    (htext : v.isTextLike = true) (depth : Nat) (hs : s ∈ c.reach) :
    (s.path, textPurpose) ∈ (lowerNode .none (depth + 1) c).2.seen := by
  obtain ⟨c₁, c₂, c₃, c₄, c₅, hcourse⟩ := course_lowerNode hc (by rw [hv]; rfl) depth
  have hcomes : c₁ = c := hcourse.comes.trans (approach_of_other (not_element_of_isTextLike hv htext))
  rcases prepareText_roots hv with ⟨hother, -⟩ | ⟨-, -, hmarked⟩
  · rw [htext] at hother
    cases hother
  · have hgrows : Grows (prepareText c).2 c₂ := by
      rw [hcourse.texts, hcomes, textStep]
      exact (growing_nestedBlocks (balanced_lowerNode depth).grows _ _).trans ((steady_finishText _ _).grows _)
    have hm : (s.path, textPurpose) ∈ c₃.seen := by
      rw [hcourse.slots.seen]
      exact hgrows.seen _ (hmarked s hs)
    exact (hcourse.grows.2.1.trans hcourse.grows.2.2).seen _ hm

theorem AheadFrom.step {v child : Visited} {base c : Context} (h : AheadFrom v.children k base c)
    (hc : Collecting c) (hv : c.frame.node = some v) (hchild : v.children[k]? = some child)
    (isFragment : Bool) :
    AheadFrom v.children (k + 1) base
      (afterChild (lowerNode .none (depth + 1)) isFragment child k c) := by
  have hsparing := sparing_lowerNode (depth + 1)
  have hgrows := (resumed_afterChild (balanced_lowerNode (depth + 1)) hc isFragment child k).grows
  -- What is below a later child is concerned only if the visited child and all up to it are in one group.
  have hstep : ∀ {j s}, k < j → v.children[j]? = some s → ¬ TextRun v.children k j → SparedBelow s base c →
      SparedBelow s base (afterChild (lowerNode .none (depth + 1)) isFragment child k c) := by
    intro j s hkj hs hrun hspared p hp hne hbase
    refine unseen_afterChild hsparing hc ?_ ?_ (hspared p hp hne hbase)
    · intro s' hs' hp'
      rcases mem_reach_enterChild hv hs' with ⟨-, rfl⟩ | ⟨-, a, -, ha, hrun'⟩
      · have := Visited.eq_of_below hs hchild hp hp'
        omega
      · obtain rfl := Visited.eq_of_below hs ha hp hp'
        exact hrun hrun'
    · rintro s' hs' rfl
      obtain ⟨hmem, htext⟩ := mem_children_of_mem_group hv hs'
      obtain ⟨a, ha⟩ := List.mem_iff_getElem?.mp hmem
      obtain rfl := Visited.eq_of_below hs ha hp List.suffix_rfl
      obtain rfl := Option.some.inj (hs.symm.trans ha)
      exact hne htext rfl
  constructor
  · intro j s hj hs htext
    refine hstep (by omega) hs (fun hrun => ?_) (h.other j s (by omega) hs htext)
    rw [hrun j (by omega) (Nat.le_refl j) s hs] at htext
    cases htext
  · intro i j s s' hi hij hs hs' hrun
    rcases h.run i j s s' (by omega) hij hs hs' hrun with hspared | hseen
    · by_cases hall : TextRun v.children k j
      · -- All from the visited child on are texts and expressions.
        cases hexp : child.isExpression && !c.seen.contains (child.path, textPurpose) with
        | true =>
          right
          have htext := hall k (Nat.le_refl k) (by omega) child hchild
          have hreach : (c.enterChild child k).reach = (v.children.drop k).takeWhile Visited.isTextLike := by
            simp only [Context.reach, Context.enterChild, Frame.ofNode, htext, hexp, if_true,
              List.head?_cons, Option.bind_some, hv, Option.elim_some]
          have hmem : s ∈ (c.enterChild child k).reach := by
            rw [hreach, mem_run_iff]
            exact ⟨i, by omega, hs, fun l hl hli => hall l hl (by omega)⟩
          rw [afterChild, seen_takeChild]
          exact marked_of_mem_reach ((grows_enterChild child k c).collecting hc) rfl htext depth hmem
        | false =>
          left
          have htext := hall k (Nat.le_refl k) (by omega) child hchild
          have hreach : (c.enterChild child k).reach = [] := by
            simp only [Context.reach, Context.enterChild, Frame.ofNode, htext, hexp, if_true,
              Bool.false_eq_true, if_false]
          have hgroup : (c.enterChild child k).group = [] := by
            simp only [Context.group, Context.enterChild, Frame.ofNode, hexp, Bool.false_eq_true, if_false]
          intro p hp hne hbase
          refine unseen_afterChild hsparing hc ?_ ?_ (hspared p hp hne hbase)
          · rw [Apart, hreach]
            simp
          · rw [hgroup]
            simp
      · exact Or.inl (hstep (by omega) hs' hall hspared)
    · exact Or.inr (hgrows.seen _ hseen)

theorem AheadFrom.children {base c : Context} (h : AheadFrom v.children 0 base c) (hc : Collecting c)
    (hv : c.frame.node = some v) (isFragment : Bool) (hk : k ≤ v.children.length) :
    let c' := (lowerChildren (lowerNode .none (depth + 1)) isFragment 0 (v.children.take k) c).2
    AheadFrom v.children k base c' ∧ Resumed c c' := by
  have hbalanced := balanced_lowerNode (depth + 1)
  induction k with
  | zero => exact ⟨h, .refl _, rfl, rfl⟩
  | succ k ih =>
    obtain ⟨hahead, hresumed⟩ := ih (by omega)
    have hc' := hresumed.grows.collecting hc
    have hchild : v.children[k]? = some v.children[k] := List.getElem?_eq_getElem hk
    dsimp only
    rw [lowerChildren_take_succ hbalanced isFragment hc hchild]
    exact ⟨hahead.step hc' (hresumed.node.trans hv) hchild isFragment,
      hresumed.trans (resumed_afterChild hbalanced hc' isFragment _ k)⟩

/-! ## Coming to nodes -/

/-- The state in which the walk turns to the children of a node. -/
def beforeChildren (visit : Lower Unit) (c : Context) : Context :=
  (slotStep (textStep visit (approach c).2).2).2

/-- The state in which the walk comes to a child of the node `v`, after those before it. -/
def comeToChild (visit : Lower Unit) (v : Visited) (index : Nat) (child : Visited) (c : Context) : Context :=
  (lowerChildren visit v.isFragment 0 (v.children.take index) c).2.enterChild child index

/-- The state in which the walk comes to an element inside an expression, after those before it. -/
def comeToRoot (visit : Lower Unit) (roots : List Visited) (index : Nat) (r : Visited) (c : Context) :
    Context :=
  enterNested r (nestedBlocks visit (roots.take index) c).2

end Lower

/-- Whether the walk over a template comes to a node in a state, from where it may go down as far as the
number says. -/
inductive Arrives (o : LoweringOptions) (t : Template) : Nat → Context → Prop where
  | start : Arrives o t t.depth (Context.ofTemplate o t)
  | child {depth : Nat} {c : Context} {v child : Visited} {index : Nat} (h : Arrives o t (depth + 1) c)
      (hv : (Lower.beforeChildren (Lower.lowerNode .none depth) c).frame.node = some v)
      (hchild : v.children[index]? = some child) :
      Arrives o t depth (Lower.comeToChild (Lower.lowerNode .none depth) v index child
        (Lower.beforeChildren (Lower.lowerNode .none depth) c))
  | root {depth : Nat} {c : Context} {r : Visited} {index : Nat} (h : Arrives o t (depth + 1) c)
      (hr : (Lower.prepareText (Lower.approach c).2).1.roots[index]? = some r) :
      Arrives o t depth (Lower.comeToRoot (Lower.lowerNode .none depth)
        (Lower.prepareText (Lower.approach c).2).1.roots index r
        (Lower.prepareText (Lower.approach c).2).2)

/-- What holds when the walk comes to a node. -/
structure Arrived (t : Template) (depth : Nat) (c : Context) : Prop where
  collecting : Collecting c
  node : c.frame.node.isSome = true
  sound : Sound t c
  affords : Affords depth c
  plan : c.frame.plan = .empty
  slots : c.frame.slots = []
  ahead : ∀ s ∈ c.reach, ∀ p, IsAhead s p → p ∉ c.seen

namespace Lower

variable {t : Template}

/-- What is known when the walk turns to the children of a node; `base` is the state before the elements
inside expressions are visited. -/
structure AtChildren (depth : Nat) (c base c' : Context) (v : Visited) : Prop where
  collecting : Collecting c'
  node : c'.frame.node = some v ∧ ∃ w, c.frame.node = some w ∧ (v = w ∨ ∃ path tag children,
    w = .node path (.element tag children) ∧ v = .wrapped path tag children)
  cost : v.cost c'.seen ≤ depth
  ahead : AheadFrom v.children 0 base c'
  base : ∀ p : Path × String, (p.1 = v.path → p.2 = textPurpose) → p ∉ c.seen → p ∉ base.seen

theorem atChildren (h : Arrived t (depth + 1) c) :
    ∃ v, v.Valid t ∧
      AtChildren (depth + 1) c (approach c).2 (beforeChildren (lowerNode .none depth) c) v := by
  obtain ⟨w, hw⟩ := Option.isSome_iff_exists.mp h.node
  have hbalanced := balanced_lowerNode depth
  have hnears := nears_approach c
  obtain ⟨v, hv, hcost, hkind⟩ := hnears.node w hw
  have hvalid := hnears.valid hw hv (h.sound.node w hw)
  have hpath := (isTextLike_wrapped hkind).2
  rw [beforeChildren]
  generalize hcomes : (approach c).2 = c₁ at hnears hv hcost
  have hc₁ := hnears.grows.collecting h.collecting
  have htexts := fixed_textStep hbalanced
  have hgrows₂ := htexts.grows c₁
  have hc₂ := hgrows₂.collecting hc₁
  have hgrows₃ := does_slotStep.grows (textStep (lowerNode .none depth) c₁).2
  have hslots := hushing_slotStep (textStep (lowerNode .none depth) c₁).2
  refine ⟨v, hvalid, ?_⟩
  refine
    { collecting := hgrows₃.collecting hc₂
      node := ⟨(hslots.node.trans (htexts.node c₁ hc₂.goesOn)).trans hv, w, hw, hkind⟩
      cost := ?_
      ahead := ?_
      base := ?_ }
  · exact Nat.le_trans (Visited.cost_mono (hgrows₂.trans hgrows₃).seen v)
      (Nat.le_trans hcost (h.affords.node w hw))
  · -- Either no element inside an expression was visited, or all children are marked.
    rcases prepareText_roots hv with ⟨htext, hnone | ⟨-, hmarked⟩⟩ | ⟨htext, -⟩
    · have hspared : ∀ {s : Visited} {i : Nat}, v.children[i]? = some s →
          SparedBelow s c₁ (slotStep (textStep (lowerNode .none depth) c₁).2).2 := by
        intro s i hs p hp hne hbase
        rw [hslots.seen]
        have hrun : (textStep (lowerNode .none depth) c₁).2 =
            (finishText (prepareText c₁).1 [] (prepareText c₁).2).2 := by
          rw [textStep]
          simp only [runText, run_bind, hnone]
          rfl
        rw [hrun, ((steady_finishText _ _).still _).seen]
        intro hm
        rcases marks_prepareText hv hm with hm | ⟨s', hs' | hs', htext', rfl⟩
        · exact hbase hm
        · rw [group_of_other hv htext] at hs'
          cases hs'
        · obtain ⟨j, hj⟩ := List.mem_iff_getElem?.mp hs'
          obtain rfl := Visited.eq_of_below hs hj hp List.suffix_rfl
          obtain rfl := Option.some.inj (hs.symm.trans hj)
          exact hne htext' rfl
      exact ⟨fun _ _ _ hs _ => hspared hs, fun _ _ _ _ _ _ _ hs' _ => Or.inl (hspared hs')⟩
    · have hgrows : Grows (prepareText c₁).2 (slotStep (textStep (lowerNode .none depth) c₁).2).2 := by
        refine Grows.trans ?_ hgrows₃
        rw [textStep]
        exact (growing_nestedBlocks hbalanced.grows _ _).trans ((steady_finishText _ _).grows _)
      constructor
      · intro j s _ hs htext'
        rw [(hmarked s (List.mem_of_getElem? hs)).1] at htext'
        cases htext'
      · intro i j s s' _ _ hs _ _
        exact Or.inr (hgrows.seen _ (hmarked s (List.mem_of_getElem? hs)).2)
    · rw [Visited.children_of_isTextLike htext]
      exact ⟨by simp, by simp⟩
  · intro p hp h' hm
    rcases hnears.seen w hw _ hm with hm | ⟨hm, hpurpose⟩
    · exact h' hm
    · exact hpurpose (hp (hm.trans hpath.symm))

theorem atChildren_of_node (h : Arrived t (depth + 1) c) {v : Visited}
    (hv : (beforeChildren (lowerNode .none depth) c).frame.node = some v) : v.Valid t ∧
      AtChildren (depth + 1) c (approach c).2 (beforeChildren (lowerNode .none depth) c) v := by
  obtain ⟨v', hvalid, hat⟩ := atChildren h
  obtain rfl := Option.some.inj (hat.node.1.symm.trans hv)
  exact ⟨hvalid, hat⟩

namespace AtChildren

variable {t : Template} {depth : Nat} {c base c' : Context} {v : Visited}

theorem unseen_below (h : AtChildren (depth + 1) c base c' v) (harrived : Arrived t (depth + 1) c)
    (htext : v.isTextLike = false) (hp : v.path <:+ p.1) (hown : p.1 = v.path → p.2 = textPurpose) :
    p ∉ base.seen := by
  obtain ⟨-, w, hw, hkind⟩ := h.node
  obtain ⟨htext', hpath⟩ := isTextLike_wrapped hkind
  have hother := htext'.symm.trans htext
  refine h.base p hown (harrived.ahead w ?_ p ⟨hpath ▸ hp, fun heq => ⟨hother, hown (hpath ▸ heq)⟩⟩)
  rw [reach_of_other hw hother]
  exact List.mem_singleton_self w

theorem depth_pos (h : AtChildren (depth + 1) c base c' v) (hchild : child ∈ v.children) :
    ∃ d, depth = d + 1 := by
  have hcost : child.cost c'.seen + 1 ≤ v.cost c'.seen := Visited.cost_child hchild
  have hpos : 0 < child.cost c'.seen := child.cost_pos
  have hle := h.cost
  exact ⟨depth - 1, by omega⟩

theorem children (h : AtChildren (depth + 1) c base c' v) (hchild : v.children[index]? = some child) :
    let c₁ := (lowerChildren (lowerNode .none depth) v.isFragment 0 (v.children.take index) c').2
    AheadFrom v.children index base c₁ ∧ Resumed c' c₁ := by
  obtain ⟨d, rfl⟩ := h.depth_pos (List.mem_of_getElem? hchild)
  exact h.ahead.children h.collecting h.node.1 v.isFragment
    (Nat.le_of_lt (List.getElem?_eq_some_iff.mp hchild).1)

theorem unseen_child (h : AtChildren (depth + 1) c base c' v) (harrived : Arrived t (depth + 1) c)
    (hchild : v.children[index]? = some child) (htext : child.isTextLike = false)
    (hp : child.path <:+ p.1) (hown : p.1 = v.path → p.2 = textPurpose) :
    p ∉ (comeToChild (lowerNode .none depth) v index child c').seen := by
  have hmem := List.mem_of_getElem? hchild
  have hnot := Visited.isTextLike_of_child hmem
  have hbase := h.unseen_below harrived hnot ((Visited.suffix_of_child hmem).trans hp) hown
  refine (h.children hchild).1.other index child (Nat.le_refl _) hchild htext p hp ?_ hbase
  simp [htext]

theorem arrived_child (h : AtChildren (depth + 1) c base c' v) (harrived : Arrived t (depth + 1) c)
    (hvalid : v.Valid t) (hchild : v.children[index]? = some child) :
    Arrived t depth (comeToChild (lowerNode .none depth) v index child c') := by
  obtain ⟨hahead, hresumed⟩ := h.children hchild
  have hmem := List.mem_of_getElem? hchild
  have hc₁ := hresumed.grows.collecting h.collecting
  have hv₁ := hresumed.node.trans h.node.1
  have hcost : ∀ s ∈ v.children, s.cost
      (lowerChildren (lowerNode .none depth) v.isFragment 0 (v.children.take index) c').2.seen ≤ depth := by
    intro s hs
    have hchild : s.cost c'.seen + 1 ≤ v.cost c'.seen := Visited.cost_child hs
    have hle := h.cost
    exact Nat.le_trans (Visited.cost_mono hresumed.grows.seen s) (by omega)
  refine
    { collecting := (grows_enterChild child index _).collecting hc₁
      node := rfl
      sound := Sound.below rfl (hvalid.child hmem) rfl fun u hu =>
        Option.some.inj (hv₁.symm.trans hu) ▸ hvalid
      affords := affords_enterChild hv₁ hcost hmem index
      plan := rfl
      slots := rfl
      ahead := ?_ }
  intro s hs p hp
  have hown : ∀ {s'}, s' ∈ v.children → IsAhead s' p → p.1 = v.path → p.2 = textPurpose := by
    intro s' hs' hp' heq
    have hsuffix := Visited.suffix_of_child hs'
    rw [← heq] at hsuffix
    exact (hp'.2 (hsuffix.eq_of_length_le hp'.1.length_le)).2
  rcases mem_reach_enterChild hv₁ hs with ⟨htext, rfl⟩ | ⟨hunseen, a, hle, ha, hrun⟩
  · exact h.unseen_child harrived hchild htext hp.1 (hown hmem hp)
  · have hmem' := List.mem_of_getElem? ha
    have hnot := Visited.isTextLike_of_child hmem
    have hbase := h.unseen_below harrived hnot ((Visited.suffix_of_child hmem').trans hp.1)
      (hown hmem' hp)
    rcases hahead.run index a child s (Nat.le_refl _) hle hchild ha hrun with hspared | hseen
    · exact hspared p hp.1 hp.not_own hbase
    · exact absurd hseen hunseen

end AtChildren

theorem nestedRoots_apart (h : vs.Pairwise fun a b => ∀ q, a.path <:+ q → ¬ b.path <:+ q) :
    (nestedRoots vs).Pairwise fun a b => ∀ q, a.path <:+ q → ¬ b.path <:+ q := by
  have hbelow : ∀ {v r : Visited}, r ∈ nestedRoots [v] → v.path <:+ r.path := by
    intro v r hr
    obtain ⟨s, hs, i, hpath⟩ := below_of_mem_nestedRoots hr
    rw [hpath, List.mem_singleton.mp hs]
    exact List.suffix_cons _ _
  rw [nestedRoots, List.pairwise_flatMap]
  refine ⟨fun v _ => ?_, h.imp fun {a b} hab r hr r' hr' q hq hq' => ?_⟩
  · rcases v with _ | ⟨path, _ | _ | _ | ⟨_, roots, _⟩⟩ | _
    case node.expression =>
      have hindices : roots.zipIdx.Pairwise fun a b => a.2 < b.2 := by
        refine List.pairwise_map.mp ?_
        rw [List.zipIdx_map_snd]
        exact List.pairwise_lt_range'
      refine List.pairwise_map.mpr (hindices.imp fun {a b} hlt q ha hb => ?_)
      have heq : a.2 :: path = b.2 :: path :=
        (List.suffix_of_suffix_length_le ha hb (Nat.le_refl _)).eq_of_length rfl
      have hindex := (List.cons.inj heq).1
      omega
    all_goals exact .nil
  · refine hab q ((hbelow (v := a) ?_).trans hq) ((hbelow (v := b) ?_).trans hq')
    · simpa [nestedRoots] using hr
    · simpa [nestedRoots] using hr'

theorem prepareText_apart (c : Context) :
    (prepareText c).1.roots.Pairwise fun a b => ∀ q, a.path <:+ q → ¬ b.path <:+ q := by
  cases hv : c.frame.node with
  | none =>
    have hnode : node c = (none, c) := by rw [← hv]; rfl
    rw [prepareText, run_bind, hnode]
    exact .nil
  | some v =>
    rcases prepareText_roots hv with ⟨-, hroots | ⟨hroots, -⟩⟩ | ⟨htext, hroots | hroots, -⟩
    · rw [hroots]
      exact .nil
    · rw [hroots]
      exact nestedRoots_apart v.children_apart
    · rw [hroots]
      exact .nil
    · rw [hroots]
      refine nestedRoots_apart ?_
      simp only [Context.reach, hv, htext, if_true]
      split
      · cases c.outer.head?.bind Frame.node with
        | none => simp
        | some u =>
          exact (u.children_apart.sublist (List.drop_sublist _ _)).sublist (List.takeWhile_sublist _)
      · exact .nil

theorem ahead_approach (h : Arrived t depth c) (hs : s ∈ (approach c).2.reach) (hp : IsAhead s p) :
    p ∉ (approach c).2.seen := by
  obtain ⟨w, hw⟩ := Option.isSome_iff_exists.mp h.node
  cases htext : w.isTextLike with
  | true =>
    rw [approach_of_other (not_element_of_isTextLike hw htext)] at hs ⊢
    exact h.ahead s hs p hp
  | false =>
    have hnears := nears_approach c
    obtain ⟨v, hv, -, hkind⟩ := hnears.node w hw
    obtain ⟨htext', hpath⟩ := isTextLike_wrapped hkind
    rw [reach_of_other hv (htext'.trans htext), List.mem_singleton] at hs
    subst hs
    have hbefore : p ∉ c.seen := by
      refine h.ahead w ?_ p ⟨hpath ▸ hp.1, fun heq => ⟨htext, (hp.2 (heq.trans hpath.symm)).2⟩⟩
      rw [reach_of_other hw htext]
      exact List.mem_singleton_self w
    intro hm
    rcases hnears.seen w hw _ hm with hm | ⟨hm, hpurpose⟩
    · exact hbefore hm
    · exact hpurpose (hp.2 (hm.trans hpath.symm)).2

theorem not_below_of_mem_prepareText {v r s : Visited} (hv : c.frame.node = some v)
    (hr : r ∈ (prepareText c).1.roots) (hs : s ∈ c.group ∨ s ∈ v.children) : ¬ r.path <:+ s.path := by
  -- The expression that holds the element and the marked node are children of one node.
  have hdistinct : ∀ {u a : Visited} {i : Nat}, a ∈ u.children → r.path = i :: a.path → s ∈ u.children →
      ¬ r.path <:+ s.path := by
    intro u a i ha hpath hs hbelow
    obtain ⟨j, hj⟩ := List.mem_iff_getElem?.mp ha
    obtain ⟨k, hk⟩ := List.mem_iff_getElem?.mp hs
    rw [hpath] at hbelow
    obtain rfl := Visited.eq_of_below hj hk ((List.suffix_cons i a.path).trans hbelow) List.suffix_rfl
    obtain rfl := Option.some.inj (hj.symm.trans hk)
    have hlength := hbelow.length_le
    simp only [List.length_cons] at hlength
    omega
  rcases prepareText_roots hv with ⟨htext, hnone | ⟨hroots, -⟩⟩ | ⟨htext, hnone | hroots, -⟩
  · simp [hnone] at hr
  · rw [hroots] at hr
    obtain ⟨a, ha, i, hpath⟩ := below_of_mem_nestedRoots hr
    rcases hs with hs | hs
    · rw [group_of_other hv htext] at hs
      cases hs
    · exact hdistinct ha hpath hs
  · simp [hnone] at hr
  · rw [hroots] at hr
    obtain ⟨a, ha, i, hpath⟩ := below_of_mem_nestedRoots hr
    rcases hs with hs | hs
    · simp only [Context.reach, Context.group, hv, htext, if_true] at ha hs
      split at ha
      · next hexp =>
        rw [if_pos hexp] at hs
        cases hu : c.outer.head?.bind Frame.node with
        | none => simp [hu] at ha
        | some u =>
          rw [hu] at ha hs
          exact hdistinct (List.mem_of_mem_drop (List.takeWhile_subset _ ha)) hpath (mem_of_mem_groupAt hs)
      · cases ha
    · rw [Visited.children_of_isTextLike htext] at hs
      cases hs

theorem arrived_root (h : Arrived t (depth + 1) c)
    (hr : (prepareText (approach c).2).1.roots[index]? = some r) :
    Arrived t depth (comeToRoot (lowerNode .none depth) (prepareText (approach c).2).1.roots index r
      (prepareText (approach c).2).2) := by
  obtain ⟨w, hw⟩ := Option.isSome_iff_exists.mp h.node
  have hbalanced := balanced_lowerNode depth
  have hnears := nears_approach c
  obtain ⟨v, hv, -, -⟩ := hnears.node w hw
  have hmem := List.mem_of_getElem? hr
  have hvalid₁ : ∀ u, (approach c).2.frame.node = some u → u.Valid t := fun u hu =>
    hnears.valid hw hu (h.sound.node w hw)
  have hsound₁ : Sound t (approach c).2 := ⟨hvalid₁, hnears.outer ▸ h.sound.parent⟩
  have haffords₁ := affords_of_nears hnears h.affords hw
  have hc₁ := hnears.grows.collecting h.collecting
  obtain ⟨vs, hvs, hrvs⟩ := nested_of_mem_prepareText hsound₁ hmem
  have hrvalid := valid_of_mem_nestedRoots hvs hrvs
  have hprepare := Fixed.compositional.calm does_prepareText rfl
  have hc₂ := (hprepare.grows (approach c).2).collecting hc₁
  have hnested := fixed_nestedBlocks hbalanced ((prepareText (approach c).2).1.roots.take index)
  have hgrows := hnested.grows (prepareText (approach c).2).2
  have hc₃ := hgrows.collecting hc₂
  have hnode : (nestedBlocks (lowerNode .none depth) ((prepareText (approach c).2).1.roots.take index)
      (prepareText (approach c).2).2).2.frame.node = (approach c).2.frame.node :=
    (hnested.node _ hc₃.goesOn).trans (hprepare.node _ hc₂.goesOn)
  refine
    { collecting := (grows_enterNested r _).collecting hc₃
      node := rfl
      sound := Sound.below (c := (nestedBlocks (lowerNode .none depth)
        ((prepareText (approach c).2).1.roots.take index) (prepareText (approach c).2).2).2) rfl hrvalid rfl
        (hnode ▸ hvalid₁)
      affords := ⟨?_, ?_⟩
      plan := rfl
      slots := rfl
      ahead := ?_ }
  · rintro u ⟨⟩
    refine Nat.le_trans (Visited.cost_mono hgrows.seen r) ?_
    exact (cost_of_mem_prepareText haffords₁ r hmem).2
  · rintro u parent ⟨⟩ hexp
    rw [(cost_of_mem_prepareText haffords₁ r hmem).1] at hexp
    cases hexp
  · rintro s hs p ⟨hp, -⟩
    rw [reach_of_other (v := r) rfl (isTextLike_of_mem_prepareText hmem), List.mem_singleton] at hs
    subst hs
    obtain ⟨u, hu, hbelow, hne⟩ := below_of_mem_prepareText hv hmem
    have hstrict : p.1 ≠ u.path := by
      intro heq
      rw [heq] at hp
      exact hne (hp.eq_of_length_le hbelow.length_le)
    have hbefore : p ∉ (prepareText (approach c).2).2.seen := by
      intro hm
      rcases marks_prepareText hv hm with hm | ⟨s', hs', -, rfl⟩
      · exact ahead_approach h hu ⟨hbelow.trans hp, fun heq => absurd heq hstrict⟩ hm
      · exact not_below_of_mem_prepareText hv hmem hs' hp
    -- The elements before this one are not above it.
    refine unseen_nestedBlocks (sparing_lowerNode depth) hbalanced
      (fun r' hr' => isTextLike_of_mem_prepareText (List.mem_of_mem_take hr')) ?_ hc₂ hbefore
    intro r' hr' hp'
    have hapart := prepareText_apart (approach c).2
    rw [← List.take_append_drop index (prepareText (approach c).2).1.roots, List.pairwise_append] at hapart
    refine hapart.2.2 r' hr' s (List.mem_of_getElem? (i := 0) ?_) p.1 hp' hp
    rw [List.getElem?_drop, Nat.add_zero, hr]

theorem arrived_ofTemplate {o : LoweringOptions} (ho : o.collectErrors = true) (t : Template) :
    Arrived t t.depth (Context.ofTemplate o t) where
  collecting := ⟨ho, rfl⟩
  node := rfl
  sound := sound_ofTemplate o t
  affords := affords_ofTemplate o t
  plan := rfl
  slots := rfl
  ahead := fun _ _ _ _ hm => nomatch hm

theorem arrived_of_arrives {o : LoweringOptions} (ho : o.collectErrors = true) (h : Arrives o t depth c) :
    Arrived t depth c := by
  induction h with
  | start => exact arrived_ofTemplate ho t
  | child _ hv hchild ih =>
    obtain ⟨hvalid, hat⟩ := atChildren_of_node ih hv
    exact hat.arrived_child ih hvalid hchild
  | root _ hr ih => exact arrived_root ih hr

/-! ## The beginning of a walk -/

section

variable {o : LoweringOptions} (ho : o.collectErrors = true) {t : Template} (depth : Nat)

include ho

theorem node_ofTemplate (hdepth : t.depth = depth + 1) :
    (beforeChildren (lowerNode .none depth) (Context.ofTemplate o t)).frame.node = some (.root t) := by
  have hstart : Arrives o t (depth + 1) (Context.ofTemplate o t) := hdepth ▸ .start
  obtain ⟨v, -, hat⟩ := atChildren (arrived_of_arrives ho hstart)
  obtain ⟨hv, w, hw, rfl | ⟨path, tag, children, rfl, -⟩⟩ := hat.node
  · exact hv.trans hw.symm
  · cases hw

/-- It comes to the first node of the template, and stays there if that is not wrapped. -/
theorem arrives_top (hdepth : t.depth = depth + 2) {n : Node}
    (hn : (Visited.root t).children[0]? = some (.node [0] n)) :
    let c := comeToChild (lowerNode .none (depth + 1)) (.root t) 0 (.node [0] n)
      (beforeChildren (lowerNode .none (depth + 1)) (Context.ofTemplate o t))
    Arrives o t (depth + 1) c ∧
      (((beforeChildren (lowerNode .none depth) c).frame.node.bind Visited.tag?).isSome = true →
        (beforeChildren (lowerNode .none depth) c).frame.node = some (.node [0] n)) := by
  have hstart : Arrives o t (depth + 2) (Context.ofTemplate o t) := hdepth ▸ .start
  have harrives := Arrives.child hstart (node_ofTemplate ho (depth + 1) hdepth) hn
  refine ⟨harrives, fun htag => ?_⟩
  obtain ⟨v, -, hat⟩ := atChildren (arrived_of_arrives ho harrives)
  obtain ⟨hv, w, hw, rfl | ⟨path, tag, children, -, rfl⟩⟩ := hat.node
  · exact hv.trans hw.symm
  · rw [hv] at htag
    cases htag

end

end Lower

end JsxTemplate
