import JsxTemplate.Proofs.Lowering.Siblings

/-!
# What texts and expressions come to

The texts and expressions among the children of a node form runs. The first expression of a run leads a
group: the text directly before it, if there is one, and all that stands from it on in the run. The values
of the group are those of one operation. A text that no expression leads is markup. In an element that holds
nothing but texts and expressions, of which one is an expression, all children together are its text.

The walk finds the groups by marks. Before the children of a node are visited, the texts in front of
expressions are marked; the visit of an expression that is not marked marks its group (`marked_iff`). So each
text and each expression contributes exactly once (`texts_contribute_once`).
-/

namespace JsxTemplate

/-- Whether an element holds nothing but texts and expressions, of which one is an expression. -/
def Visited.holdsText (v : Visited) : Bool :=
  v.children.any Visited.isExpression &&
    ((v.tag?.any fun tag => tag.type == .element) && v.children.all Visited.isTextLike)

namespace Lower

variable {vs : List Visited} {c : Context} {visit : Lower Unit} {v child : Visited} {i : Nat}

/-! ## Groups -/

/-- Whether the expression at the index `j` leads the group of the node at the index `i`. -/
structure Leads (vs : List Visited) (j i : Nat) : Prop where
  expression : vs[j]?.any Visited.isExpression = true
  first : ∀ l < j, vs[l]?.any Visited.isExpression = true → ¬ TextRun vs l j
  follows : j ≤ i ∧ TextRun vs j i ∨ i + 1 = j ∧ vs[i]?.any Visited.isText = true

theorem TextRun.trans {i j k : Nat} (h : TextRun vs i j) (h' : TextRun vs j k) : TextRun vs i k := by
  intro l hil hlk
  rcases Nat.le_total l j with hlj | hjl
  · exact h l hil hlj
  · exact h' l hjl hlk

theorem TextRun.mono {i j i' j' : Nat} (h : TextRun vs i j) (hi : i ≤ i') (hj : j' ≤ j) :
    TextRun vs i' j' :=
  fun l hil hlj => h l (by omega) (by omega)

theorem isText_eq_false_of_isExpression (h : v.isExpression = true) : v.isText = false := by
  match v, h with
  | .node _ (.expression _ _ _), _ => rfl

theorem isExpression_of_isTextLike (h : v.isTextLike = true) (hnot : v.isText = false) :
    v.isExpression = true := by
  match v, h, hnot with
  | .node _ (.expression _ _ _), _, _ => rfl

theorem textRun_of_isExpression {j : Nat} (h : vs[j]?.any Visited.isExpression = true) :
    TextRun vs j j := by
  intro l hjl hlj s hs
  obtain rfl : l = j := Nat.le_antisymm hlj hjl
  rw [hs, Option.any_some] at h
  exact isTextLike_of_isExpression h

theorem Leads.unique {j j' i : Nat} (h : Leads vs j i) (h' : Leads vs j' i) : j = j' := by
  have hnot : ∀ {j j'}, Leads vs j i → Leads vs j' i → ¬ j < j' := by
    intro j j' h h' hlt
    refine h'.first j hlt h.expression ?_
    rcases h.follows with ⟨hji, hrun⟩ | ⟨rfl, -⟩
    · rcases h'.follows with ⟨hji', -⟩ | ⟨rfl, -⟩
      · exact hrun.mono (Nat.le_refl j) hji'
      · intro l hjl hli
        rcases Nat.lt_or_ge i l with hil | hle
        · exact textRun_of_isExpression h'.expression l (by omega) hli
        · exact hrun l hjl hle
    · rcases h'.follows with ⟨hji', -⟩ | ⟨rfl, -⟩ <;> omega
  have hle := Nat.le_of_not_lt (hnot h h')
  have hge := Nat.le_of_not_lt (hnot h' h)
  omega

theorem exists_first (j : Nat) (hj : vs[j]?.any Visited.isExpression = true) :
    ∃ l ≤ j, vs[l]?.any Visited.isExpression = true ∧ TextRun vs l j ∧
      ∀ m < l, vs[m]?.any Visited.isExpression = true → ¬ TextRun vs m l := by
  induction j using Nat.strongRecOn with
  | _ j ih =>
    by_cases hfirst : ∃ m < j, vs[m]?.any Visited.isExpression = true ∧ TextRun vs m j
    · obtain ⟨m, hm, hexp, hrun⟩ := hfirst
      obtain ⟨l, hle, hl, hrun', hno⟩ := ih m hm hexp
      exact ⟨l, by omega, hl, hrun'.trans hrun, hno⟩
    · refine ⟨j, Nat.le_refl j, hj, textRun_of_isExpression hj, fun m hm hexp hrun => ?_⟩
      exact hfirst ⟨m, hm, hexp, hrun⟩

/-- Whether a child is marked when the first `k` children have been visited: it is a text in front of an
expression, or it follows one of these. -/
def Marked (vs : List Visited) (k i : Nat) : Prop :=
  (vs[i]?.any Visited.isText = true ∧ vs[i + 1]?.any Visited.isExpression = true) ∨
    ∃ l < k, vs[l]?.any Visited.isExpression = true ∧ TextRun vs l i

theorem Marked.led (h : Marked vs i i) : ∃ j ≠ i, Leads vs j i := by
  rcases h with ⟨htext, hexp⟩ | ⟨l, hl, hexp, hrun⟩
  · obtain ⟨j, hle, hj, hrun, hfirst⟩ := exists_first (i + 1) hexp
    rcases Nat.lt_or_ge i j with hij | hji
    · obtain rfl : j = i + 1 := by omega
      exact ⟨i + 1, by omega, hj, hfirst, Or.inr ⟨rfl, htext⟩⟩
    · have hne : j ≠ i := by
        rintro rfl
        cases hs : vs[j]? with
        | none => simp [hs] at htext
        | some s =>
          rw [hs, Option.any_some] at htext hj
          rw [isText_eq_false_of_isExpression hj] at htext
          cases htext
      exact ⟨j, hne, hj, hfirst, Or.inl ⟨hji, hrun.mono (Nat.le_refl j) (by omega)⟩⟩
  · obtain ⟨j, hle, hj, hrun', hfirst⟩ := exists_first l hexp
    exact ⟨j, by omega, hj, hfirst, Or.inl ⟨by omega, hrun'.trans hrun⟩⟩

theorem Leads.marked {j i : Nat} (h : Leads vs j i) (hne : j ≠ i) : Marked vs i i := by
  rcases h.follows with ⟨hji, hrun⟩ | ⟨rfl, htext⟩
  · exact Or.inr ⟨j, by omega, h.expression, hrun⟩
  · exact Or.inl ⟨htext, h.expression⟩

theorem leads_self (hexp : vs[i]?.any Visited.isExpression = true) (h : ¬ Marked vs i i) :
    Leads vs i i :=
  ⟨hexp, fun l hl hl' hrun => h (Or.inr ⟨l, hl, hl', hrun⟩),
    Or.inl ⟨Nat.le_refl i, textRun_of_isExpression hexp⟩⟩

theorem marked_succ_iff {k i : Nat} :
    Marked vs (k + 1) i ↔ Marked vs k i ∨
      vs[k]?.any Visited.isExpression = true ∧ ¬ Marked vs k k ∧ TextRun vs k i := by
  constructor
  · rintro (hbefore | ⟨l, hl, hexp, hrun⟩)
    · exact Or.inl (Or.inl hbefore)
    · rcases Nat.lt_or_ge l k with hlk | hkl
      · exact Or.inl (Or.inr ⟨l, hlk, hexp, hrun⟩)
      · obtain rfl : l = k := by omega
        by_cases hmarked : Marked vs l l
        · left
          rcases hmarked with ⟨htext, -⟩ | ⟨m, hm, hexp', hrun'⟩
          · cases hs : vs[l]? with
            | none => simp [hs] at hexp
            | some s =>
              rw [hs, Option.any_some] at htext hexp
              rw [isText_eq_false_of_isExpression hexp] at htext
              cases htext
          · exact Or.inr ⟨m, hm, hexp', hrun'.trans hrun⟩
        · exact Or.inr ⟨hexp, hmarked, hrun⟩
  · rintro ((hbefore | ⟨l, hl, hexp, hrun⟩) | ⟨hexp, -, hrun⟩)
    · exact Or.inl hbefore
    · exact Or.inr ⟨l, by omega, hexp, hrun⟩
    · exact Or.inr ⟨k, by omega, hexp, hrun⟩

theorem takeWhile_eq_take {α : Type} (p : α → Bool) (xs : List α) :
    ∃ n, xs.takeWhile p = xs.take n ∧
      ∀ i < xs.length, i < n ↔ ∀ l ≤ i, ∀ y, xs[l]? = some y → p y = true := by
  induction xs with
  | nil => exact ⟨0, rfl, by simp⟩
  | cons x xs ih =>
    obtain ⟨n, heq, hn⟩ := ih
    cases hx : p x with
    | false =>
      refine ⟨0, by simp [hx], fun i _ => ⟨fun hi => absurd hi (Nat.not_lt_zero i), fun hall => ?_⟩⟩
      rw [hall 0 (Nat.zero_le i) x rfl] at hx
      cases hx
    | true =>
      refine ⟨n + 1, by simp [hx, heq], fun i hi => ?_⟩
      cases i with
      | zero => simp [hx]
      | succ i =>
        rw [Nat.succ_lt_succ_iff, hn i (Nat.lt_of_succ_lt_succ hi)]
        constructor
        · intro hall l hl y hy
          cases l with
          | zero => exact Option.some.inj hy ▸ hx
          | succ l => exact hall l (by omega) y hy
        · exact fun hall l hl y hy => hall (l + 1) (by omega) y hy

/-- The group of an expression that leads it stands side by side, in the order of the children. -/
theorem Leads.group {j : Nat} (h : Leads vs j j) :
    ∃ a n, groupAt vs j = (vs.drop a).take n ∧ ∀ i < vs.length, a ≤ i ∧ i < a + n ↔ Leads vs j i := by
  obtain ⟨n, heq, hn⟩ := takeWhile_eq_take Visited.isTextLike (vs.drop j)
  have hlt : j < vs.length := by
    by_contra hge
    have hnone := h.expression
    rw [List.getElem?_eq_none (Nat.le_of_not_lt hge)] at hnone
    cases hnone
  have hfollows : ∀ i < vs.length, j ≤ i → (i < j + n ↔ TextRun vs j i) := by
    intro i hi hji
    have hcount := hn (i - j) (by rw [List.length_drop]; omega)
    rw [show i < j + n ↔ i - j < n by omega, hcount]
    simp only [List.getElem?_drop]
    constructor
    · intro hall l hjl hli y hy
      exact hall (l - j) (by omega) y (by rwa [Nat.add_sub_cancel' hjl])
    · exact fun hrun l hl y hy => hrun (j + l) (by omega) (by omega) y hy
  have hleads : ∀ i, Leads vs j i ↔ (j ≤ i ∧ TextRun vs j i) ∨ i + 1 = j ∧ vs[i]?.any Visited.isText = true :=
    fun i => ⟨Leads.follows, fun hfollows => ⟨h.expression, h.first, hfollows⟩⟩
  rw [groupAt, heq]
  cases j with
  | zero =>
    refine ⟨0, n, rfl, fun i hi => ?_⟩
    rw [hleads, ← hfollows i hi (Nat.zero_le i)]
    omega
  | succ j =>
    have hbefore : vs[j]? = some vs[j] := List.getElem?_eq_getElem (by omega)
    simp only [Nat.add_sub_cancel, hbefore, Nat.succ_ne_zero, beq_iff_eq, if_false, Option.toList_some]
    cases htext : vs[j].isText with
    | false =>
      refine ⟨j + 1, n, by simp [htext], fun i hi => ?_⟩
      rw [hleads]
      constructor
      · rintro ⟨hji, hin⟩
        exact Or.inl ⟨hji, (hfollows i hi hji).mp hin⟩
      · rintro (⟨hji, hrun⟩ | ⟨heq, hbad⟩)
        · exact ⟨hji, (hfollows i hi hji).mpr hrun⟩
        · obtain rfl : i = j := by omega
          rw [hbefore, Option.any_some, htext] at hbad
          cases hbad
    | true =>
      refine ⟨j, n + 1, ?_, fun i hi => ?_⟩
      · rw [List.drop_eq_getElem_cons (by omega : j < vs.length), List.take_succ_cons]
        simp [htext]
      · rw [hleads]
        constructor
        · rintro ⟨hji, hin⟩
          rcases Nat.lt_or_ge j i with hlt | hge
          · exact Or.inl ⟨hlt, (hfollows i hi hlt).mp (by omega)⟩
          · obtain rfl : i = j := by omega
            refine Or.inr ⟨rfl, ?_⟩
            rw [hbefore, Option.any_some, htext]
        · rintro (⟨hji, hrun⟩ | ⟨heq, -⟩)
          · have := (hfollows i hi hji).mpr hrun
            omega
          · omega

/-! ## Marks -/

theorem prepareText_of_other (hv : c.frame.node = some v) (htext : v.isTextLike = false)
    (hnew : (v.path, textPurpose) ∉ c.seen) : prepareText c = prepareChildren v c := by
  have hseen : isSeen v.path textPurpose c = (false, c) := by
    have hcontains : c.seen.contains (v.path, textPurpose) = false := by simpa using hnew
    exact congrArg (·, c) hcontains
  rw [prepareText, run_bind, node_of_some hv]
  dsimp only
  rw [run_bind, hseen]
  rcases v with t | ⟨path, n⟩ | ⟨path, tag, children⟩
  · rfl
  · cases n with
    | element tag children => rfl
    | fragment children loc => rfl
    | text content loc => cases htext
    | expression e roots loc => cases htext
  · rfl

theorem prepareChildren_of_not (h : v.holdsText = false) (c : Context) :
    ∃ seen, prepareChildren v c = (.done, { c with seen }) ∧ ∀ p, p ∈ seen ↔ p ∈ c.seen ∨
      ∃ (i : Nat) (s : Visited), v.children[i]? = some s ∧ s.isText = true ∧
        v.children[i + 1]?.any Visited.isExpression = true ∧ p = (s.path, textPurpose) := by
  rw [Visited.holdsText] at h
  unfold prepareChildren
  dsimp only
  cases hexp : v.children.any Visited.isExpression with
  | false =>
    refine ⟨c.seen, rfl, fun p => (or_iff_left ?_).symm⟩
    rintro ⟨i, s, -, -, hnext, -⟩
    obtain ⟨e, he, hnext⟩ := (Option.any_eq_true _ _).mp hnext
    exact List.any_eq_false.mp hexp e (List.mem_of_getElem? he) hnext
  | true =>
    rw [hexp, Bool.true_and] at h
    rw [if_pos rfl, if_neg (by rw [h]; exact Bool.false_ne_true)]
    obtain ⟨seen, heq, hkept, hall, hnew⟩ := markAllSeen_eq (textsBeforeExpressions v.children) c
    refine ⟨seen, by rw [run_bind, heq]; rfl, fun p => ⟨fun hp => ?_, ?_⟩⟩
    · refine (hnew p hp).imp_right fun ⟨s, hs, hpath⟩ => ?_
      obtain ⟨i, hs, htext, hnext⟩ := mem_textsBeforeExpressions_iff.mp hs
      exact ⟨i, s, hs, htext, hnext, hpath⟩
    · rintro (hp | ⟨i, s, hs, htext, hnext, rfl⟩)
      · exact hkept p hp
      · exact hall s (mem_textsBeforeExpressions_iff.mpr ⟨i, hs, htext, hnext⟩)

theorem textStep_of_done {c c' : Context} (h : prepareText c = (.done, c')) :
    textStep visit c = ([], c') := by
  rw [textStep, run_bind, runText, run_bind, h]
  rfl

theorem seen_afterChild_iff {depth : Nat} {v child s : Visited} {k i : Nat} (hc : Collecting c)
    (hv : c.frame.node = some v) (hchild : v.children[k]? = some child) (hs : v.children[i]? = some s)
    (hki : k < i) (isFragment : Bool) :
    (s.path, textPurpose) ∈ (afterChild (lowerNode .none (depth + 1)) isFragment child k c).seen ↔
      (s.path, textPurpose) ∈ c.seen ∨
        child.isExpression = true ∧ (child.path, textPurpose) ∉ c.seen ∧ TextRun v.children k i := by
  have hreach : child.isExpression = true → (child.path, textPurpose) ∉ c.seen →
      (c.enterChild child k).reach = (v.children.drop k).takeWhile Visited.isTextLike := by
    intro hexp hnew
    have hcontains : c.seen.contains (child.path, textPurpose) = false := by simpa using hnew
    simp only [Context.reach, Context.enterChild, Frame.ofNode, isTextLike_of_isExpression hexp, hexp,
      hcontains, Bool.not_false, Bool.and_self, if_true, List.head?_cons, Option.bind_some, hv,
      Option.elim_some]
  constructor
  · intro hm
    by_contra hnot
    obtain ⟨hnew, hother⟩ := not_or.mp hnot
    refine unseen_afterChild (sparing_lowerNode (depth + 1)) hc ?_ ?_ hnew hm
    · intro s' hs' hbelow
      rcases mem_reach_enterChild hv hs' with ⟨-, rfl⟩ | ⟨hunseen, a, hka, ha, hrun⟩
      · have := Visited.eq_of_below hs hchild List.suffix_rfl hbelow
        omega
      · obtain rfl := Visited.eq_of_below hs ha List.suffix_rfl hbelow
        refine hother ⟨?_, hunseen, hrun⟩
        by_contra hexp
        have htext := hrun k (Nat.le_refl k) hka child hchild
        rw [Bool.not_eq_true] at hexp
        simp [Context.reach, Context.enterChild, Frame.ofNode, htext, hexp] at hs'
    · intro s' hs' heq
      have hgroup : (c.enterChild child k).group = if child.isExpression &&
          !c.seen.contains (child.path, textPurpose) then groupAt v.children k else [] := by
        simp only [Context.group, Context.enterChild, Frame.ofNode, List.head?_cons, Option.bind_some, hv,
          Option.elim_some]
      rw [hgroup] at hs'
      split at hs'
      · next hexp =>
        obtain ⟨hexp, hunseen⟩ := Bool.and_eq_true_iff.mp hexp
        have hpath : s'.path = s.path := congrArg Prod.fst heq
        rcases List.mem_append.mp hs' with hs' | hs'
        · -- The text before the visited child is not a later one.
          have hbefore : v.children[k - 1]? = some s' ∧ k ≠ 0 := by
            split at hs'
            · simp at hs'
            · next hk => exact ⟨Option.mem_toList.mp (List.mem_filter.mp hs').1, by simpa using hk⟩
          have := Visited.eq_of_below hs hbefore.1 List.suffix_rfl (hpath ▸ List.suffix_rfl)
          omega
        · obtain ⟨a, -, ha, hrun⟩ := mem_run_iff.mp hs'
          obtain rfl := Visited.eq_of_below hs ha List.suffix_rfl (hpath ▸ List.suffix_rfl)
          exact hother ⟨hexp, by simpa using hunseen, hrun⟩
      · cases hs'
  · rintro (hm | ⟨hexp, hnew, hrun⟩)
    · exact (resumed_afterChild (balanced_lowerNode (depth + 1)) hc isFragment child k).grows.seen _ hm
    · rw [afterChild, seen_takeChild]
      refine marked_of_mem_reach ((grows_enterChild child k c).collecting hc) rfl
        (isTextLike_of_isExpression hexp) depth ?_
      rw [hreach hexp hnew, mem_run_iff]
      exact ⟨i, Nat.le_of_lt hki, hs, hrun⟩

section

variable {o : LoweringOptions} (ho : o.collectErrors = true) {t : Template} {depth : Nat} {c : Context}
  (h : Arrives o t (depth + 1) c) {v : Visited}
  (hv : (beforeChildren (lowerNode .none depth) c).frame.node = some v)

include ho h hv

/-- When the walk turns to the children of a node, the node itself is not marked, and its children are not
marked either. -/
theorem unmarked_approach (htext : v.isTextLike = false) {p : Path × String} (hp : v.path <:+ p.1)
    (hpurpose : p.2 = textPurpose) : (approach c).2.frame.node = some v ∧ p ∉ (approach c).2.seen := by
  have harrived := arrived_of_arrives ho h
  obtain ⟨-, hat⟩ := atChildren_of_node harrived hv
  refine ⟨?_, hat.unseen_below harrived htext hp fun _ => hpurpose⟩
  have hslots := hushing_slotStep (textStep (lowerNode .none depth) (approach c).2).2
  have hgo := ((nears_approach c).grows.trans ((fixed_textStep (balanced_lowerNode depth)).grows _)).collecting
    harrived.collecting
  rw [← (fixed_textStep (balanced_lowerNode depth)).node (approach c).2 hgo.goesOn, ← hslots.node]
  exact hv

theorem marked_iff (hnot : v.holdsText = false) {k : Nat} (hk : k ≤ v.children.length) {s : Visited}
    (hs : v.children[i]? = some s) (hki : k ≤ i) :
    (s.path, textPurpose) ∈ (lowerChildren (lowerNode .none depth) v.isFragment 0 (v.children.take k)
      (beforeChildren (lowerNode .none depth) c)).2.seen ↔ Marked v.children k i := by
  have htext := Visited.isTextLike_of_child (List.mem_of_getElem? hs)
  obtain ⟨hv₁, hown⟩ := unmarked_approach ho h hv htext List.suffix_rfl (p := (v.path, textPurpose)) rfl
  obtain ⟨-, hat⟩ := atChildren_of_node (arrived_of_arrives ho h) hv
  induction k generalizing i s with
  | zero =>
    obtain ⟨seen, hrun, hseen⟩ := prepareChildren_of_not hnot (approach c).2
    have hbefore : (beforeChildren (lowerNode .none depth) c).seen = seen := by
      rw [beforeChildren, (hushing_slotStep _).seen,
        textStep_of_done ((prepareText_of_other hv₁ htext hown).trans hrun)]
    have hnone := (unmarked_approach ho h hv htext (Visited.suffix_of_child (List.mem_of_getElem? hs))
      (p := (s.path, textPurpose)) rfl).2
    have hstart : (lowerChildren (lowerNode .none depth) v.isFragment 0 (v.children.take 0)
        (beforeChildren (lowerNode .none depth) c)).2 = beforeChildren (lowerNode .none depth) c := rfl
    rw [hstart, hbefore, hseen, Marked]
    simp only [hnone, false_or, Nat.not_lt_zero, false_and, exists_false, or_false]
    constructor
    · rintro ⟨j, s', hs', htext', hnext, heq⟩
      have hpath : s.path = s'.path := congrArg Prod.fst heq
      obtain rfl := Visited.eq_of_below hs hs' List.suffix_rfl (hpath ▸ List.suffix_rfl)
      exact ⟨by rw [hs', Option.any_some, htext'], hnext⟩
    · rintro ⟨htext', hnext⟩
      rw [hs, Option.any_some] at htext'
      exact ⟨i, s, hs, htext', hnext, rfl⟩
  | succ k ih =>
    have hchild : v.children[k]? = some v.children[k] := List.getElem?_eq_getElem hk
    obtain ⟨d, rfl⟩ := hat.depth_pos (List.mem_of_getElem? hchild)
    have hresumed := (hat.children hchild).2
    have hc' := hresumed.grows.collecting hat.collecting
    have hlater := ih (Nat.le_of_succ_le hk) hs (Nat.le_of_succ_le hki)
    have hself := ih (Nat.le_of_succ_le hk) hchild (Nat.le_refl k)
    rw [lowerChildren_take_succ (balanced_lowerNode (d + 1)) v.isFragment hat.collecting hchild,
      seen_afterChild_iff hc' (hresumed.node.trans hv) hchild hs hki, marked_succ_iff, hchild,
      Option.any_some]
    exact or_congr hlater (and_congr_right' (and_congr_left' (not_congr hself)))

end

/-! ## The visit of a text or an expression -/

/-- What the visit of a child adds to the node around it: no operation to its block, a piece of markup, and a
plan with at most the given operation. Below a fragment, the markup is a piece of its own. -/
structure Adds (isFragment : Bool) (c c' : Context) (markup : String) (operation : Option Operation) :
    Prop where
  operations : c'.block.operations = c.block.operations
  effects : c'.block.effects = c.block.effects
  piece : c'.frame.childTemplates =
    if isFragment then c.frame.childTemplates else c.frame.childTemplates ++ [markup]
  plan : ∃ plan, c'.frame.plan.children = c.frame.plan.children ++ [plan] ∧ plan.operation = operation ∧
    (isFragment = true → c.discarding = false → markup ≠ "" →
      ∃ k, plan.template = some k ∧ c'.templates[k]? = some markup)

/-- What the walk leaves behind at a text or an expression. -/
structure Renders (c c' : Context) (markup : String) (operation : Option Operation) : Prop where
  outer : c'.outer = c.outer
  block : c'.block = c.block
  discarding : c'.discarding = c.discarding
  template : c'.frame.template = markup
  operation : c'.frame.plan.operation = operation

theorem block_reference (c : Context) : (reference c).2.block = c.block := by
  obtain ⟨_, _, _, h⟩ := reference_state c
  rw [h]

theorem frame_reference (c : Context) :
    (reference c).2.frame.template = c.frame.template ∧
      (reference c).2.frame.plan.operation = c.frame.plan.operation ∧
      (reference c).2.frame.childTemplates = c.frame.childTemplates ∧
      (reference c).2.discarding = c.discarding := by
  obtain ⟨_, _, _, h⟩ := reference_state c
  rw [h]
  exact ⟨rfl, rfl, rfl, rfl⟩

theorem Renders.adds {index : Nat} {markup : String} {operation : Option Operation}
    (h : Renders (c.enterChild child index) (visit (c.enterChild child index)).2 markup operation)
    (isFragment : Bool) :
    Adds isFragment c (afterChild visit isFragment child index c) markup operation := by
  rw [afterChild, takeChild_eq (p := c.frame) h.outer]
  generalize (visit (c.enterChild child index)).2 = c₁ at h
  cases isFragment with
  | false =>
    refine ⟨congrArg OpenBlock.operations h.block, congrArg OpenBlock.effects h.block, ?_,
      c₁.frame.plan, rfl, h.operation, fun h => absurd h Bool.false_ne_true⟩
    exact congrArg (fun m => c.frame.childTemplates ++ [m]) h.template
  | true =>
    obtain ⟨roots, heq⟩ := addToBlock_eq c₁
    obtain ⟨hmarkup, hoperation, -, hdiscarding⟩ := frame_reference c₁
    have hblock := (block_reference c₁).trans h.block
    have hoperations : (reference c₁).2.block.operations = c.block.operations :=
      congrArg OpenBlock.operations hblock
    have heffects : (reference c₁).2.block.effects = c.block.effects := congrArg OpenBlock.effects hblock
    simp only [if_true, heq]
    rcases registerTemplate_cases (reference c₁).2 with ⟨hrun, hdrop⟩ | ⟨k, pieces, hrun, -, hk, -⟩
    · rw [hrun]
      refine ⟨hoperations, heffects, rfl, _, rfl, hoperation.trans h.operation, fun _ hkept hne => ?_⟩
      rw [hdiscarding, h.discarding, hmarkup, h.template] at hdrop
      rcases hdrop with hdrop | hdrop
      · rw [show (c.enterChild child index).discarding = c.discarding from rfl, hkept] at hdrop
        cases hdrop
      · exact absurd hdrop hne
    · rw [hrun]
      refine ⟨hoperations, heffects, rfl, _, rfl, hoperation.trans h.operation, fun _ _ _ => ⟨k, rfl, ?_⟩⟩
      rw [hmarkup, h.template] at hk
      exact hk

theorem block_nestedBlocks (hbalanced : Balanced visit) (roots : List Visited) (hc : Collecting c) :
    (nestedBlocks visit roots c).2.block = c.block := by
  induction roots generalizing c with
  | nil => rfl
  | cons r roots ih =>
    have hgrows := (grows_enterNested r c).trans (hbalanced.grows (enterNested r c))
    have hkept := (hbalanced.keeps (enterNested r c) (hgrows.collecting hc).goesOn).1
    have hsaved : (visit (enterNested r c)).2.saved = _ := congrArg Stacks.saved hkept
    have hafter : (afterNested visit r c).block = c.block := by
      obtain ⟨template, pieces, -, heq⟩ := exitBlock_of_saved hsaved
      rw [afterNested, heq, popFrame_run]
      rfl
    rw [nestedBlocks_collecting hbalanced hc]
    exact (ih ((resumed_afterNested hbalanced hc r).grows.collecting hc)).trans hafter

theorem lowerNode_of_isTextLike (depth : Nat) (hc : Collecting c) (hv : c.frame.node = some v)
    (htext : v.isTextLike = true) :
    (lowerNode .none (depth + 1) c).2 = (textStep (lowerNode .none depth) c).2 := by
  have hother := not_element_of_isTextLike hv htext
  have hfixed := fixed_textStep (balanced_lowerNode depth)
  have hgo := ((hfixed.grows c).collecting hc).goesOn
  generalize hc₁ : (textStep (lowerNode .none depth) c).2 = c₁
  have hnode : c₁.frame.node = c.frame.node := hc₁ ▸ hfixed.node c hgo
  have hslots : slotStep c₁ = ([], c₁) := slotStep_of_other (hnode ▸ hother)
  have hchildren : (childrenStep (lowerNode .none depth) c₁).2 = c₁ := childrenStep_of_isTextLike _ fun w hw =>
    Option.some.inj ((hnode.trans hv).symm.trans hw) ▸ htext
  obtain ⟨cursor, hleft⟩ : ∃ cursor, (approach c).1 = [.element cursor] := by
    refine ⟨⟨some c.block.effects.length, some c.block.operations.length⟩, ?_⟩
    have honce : (onceStep c).2 = c.afterOnce := onceStep_eq c
    have hother : ∀ path tag children, c.afterOnce.frame.node ≠ some (.node path (.element tag children)) := hother
    simp only [approach, run_bind, run_pure, honce, conditionStep_of_other hother, loopStep_of_other hother,
      referenceStep_of_other hother]
    rfl
  rw [lowerNode_collecting hc (by rw [hv]; rfl)]
  simp only [run_bind, approach_of_other hother, hleft, hc₁, hslots, hchildren, List.reverse_nil,
    List.nil_append]
  have hexit : exitElement .none cursor c₁ = ((), c₁) :=
    exitElement_of_other (fun path tag children hv' => absurd (hnode.symm.trans hv') (hother path tag children))
      cursor
  have hgo : ¬ c₁.aborted = true := by
    rw [← hc₁, hgo]
    exact Bool.false_ne_true
  rw [runExits_cons, if_neg hgo, runExit, hexit]
  rfl

section

variable {depth : Nat} {c : Context} {v : Visited} (hv : c.frame.node = some v) (hempty : c.frame.template = "")

include hv hempty

theorem renders_seen (hplan : c.frame.plan = .empty) (hseen : (v.path, textPurpose) ∈ c.seen) :
    Renders c (textStep (lowerNode .none depth) c).2 "" none := by
  have hmarked : isSeen v.path textPurpose c = (true, c) :=
    congrArg (·, c) (List.contains_iff_mem.mpr hseen)
  have hprepare : prepareText c = (.done, (modifyPlan (fun p => { p with nonTemplate := true }) c).2) := by
    rw [prepareText, run_bind, node_of_some hv]
    dsimp only
    rw [run_bind, hmarked]
    rfl
  rw [textStep_of_done hprepare]
  exact ⟨rfl, rfl, rfl, hempty, congrArg NodePlan.operation hplan⟩

theorem renders_text (hplan : c.frame.plan = .empty) {path : Path} {content : String} {loc : Location}
    (htext : v = .node path (.text content loc)) (hnew : (v.path, textPurpose) ∉ c.seen) :
    Renders c (textStep (lowerNode .none depth) c).2 (Html.escapeText content) none := by
  subst htext
  have hcontains : c.seen.contains (path, textPurpose) = false := by
    rw [← Bool.not_eq_true, List.contains_iff_mem]
    exact hnew
  have hmarked : isSeen path textPurpose c = (false, c) := congrArg (·, c) hcontains
  have hprepare : prepareText c =
      (.done, (modifyFrame (fun f => { f with template := f.template ++ Html.escapeText content }) c).2) := by
    rw [prepareText, run_bind, node_of_some hv]
    dsimp only
    rw [run_bind, Visited.path, hmarked]
    rfl
  rw [textStep_of_done hprepare]
  refine ⟨rfl, rfl, rfl, ?_, congrArg NodePlan.operation hplan⟩
  exact (congrArg (· ++ Html.escapeText content) hempty).trans (String.empty_append)

theorem renders_expression (depth : Nat) (hc : Collecting c) {parent : Visited}
    (hparent : c.outer.head?.bind Frame.node = some parent) (hexp : v.isExpression = true)
    (hnew : (v.path, textPurpose) ∉ c.seen)
    (hvalues : ((groupAt parent.children c.frame.index).filterMap groupValue?).isEmpty = false) :
    ∃ id blocks once, Renders c (textStep (lowerNode .none depth) c).2 ""
      (some (.createNodes id ((groupAt parent.children c.frame.index).filterMap groupValue?) blocks once
        none)) := by
  have hcontains : c.seen.contains (v.path, textPurpose) = false := by simpa using hnew
  have hmarked : isSeen v.path textPurpose c = (false, c) := congrArg (·, c) hcontains
  have hparent' : parentNode c = (some parent, c) := by rw [← hparent]; rfl
  have hindex : index c = (c.frame.index, c) := rfl
  obtain ⟨seen, hgroup, -⟩ := groupValues_eq (groupAt parent.children c.frame.index) c
  generalize hgiven : (groupAt parent.children c.frame.index).filterMap groupValue? = values at hvalues hgroup ⊢
  let c₁ := (reference { c with seen }).2
  let c₂ := (modifyPlan (fun p => { p with insert := true, nonTemplate := true }) c₁).2
  let nested := nestedBlocks (lowerNode .none depth) (nestedRoots (groupAt parent.children c.frame.index)) c₂
  have hprepare : prepareText c = prepareExpression c := by
    rw [prepareText, run_bind, node_of_some hv]
    dsimp only
    rw [run_bind, hmarked]
    rcases v with t | ⟨path, n⟩ | ⟨path, tag, children⟩
    · exact absurd hexp Bool.false_ne_true
    · cases n with
      | expression e roots loc => rfl
      | _ => exact absurd hexp Bool.false_ne_true
    · exact absurd hexp Bool.false_ne_true
  have hrun : (textStep (lowerNode .none depth) c).2 = (modifyPlan (fun p => { p with
      operation := some (.createNodes (reference { c with seen }).1 values nested.1 nested.2.frame.once none) })
        nested.2).2 := by
    rw [textStep, run_bind, runText, run_bind, hprepare]
    simp only [prepareExpression, run_bind, hparent', hindex, hgroup, hvalues, Bool.false_eq_true, if_false]
    rfl
  refine ⟨(reference { c with seen }).1, nested.1, nested.2.frame.once, ?_⟩
  rw [hrun]
  have hc₁ : Collecting c₁ := (plain_reference.grows { c with seen }).collecting ⟨hc.collects, hc.goesOn⟩
  have hc₂ : Collecting c₂ := ⟨hc₁.collects, hc₁.goesOn⟩
  have hbalanced := balanced_lowerNode depth
  obtain ⟨hframe, houter⟩ := frame_nestedBlocks (around_lowerNode depth) hbalanced
    (fun _ (hr : _ ∈ nestedRoots (groupAt parent.children c.frame.index)) => tag?_of_mem_nestedRoots hr) hc₂
  have hnested := fixed_nestedBlocks hbalanced (nestedRoots (groupAt parent.children c.frame.index))
  have hdiscarding : nested.2.discarding = c₂.discarding :=
    congrArg Stacks.discarding (hnested.kept c₂ ((hnested.grows c₂).collecting hc₂).goesOn)
  obtain ⟨htemplate, -, -, hdiscarding'⟩ := frame_reference { c with seen }
  have hblock := block_nestedBlocks hbalanced (nestedRoots (groupAt parent.children c.frame.index)) hc₂
  exact ⟨houter.trans (reference_outer _), hblock.trans (block_reference _), hdiscarding.trans hdiscarding',
    (congrArg Frame.template hframe).trans (htemplate.trans hempty), rfl⟩

end

/-- What the walk leaves behind at an element whose children together are its text: one operation for all
values, or their text in the markup if all of them are literals. -/
inductive HoldsText (c c' : Context) (values : List Expression) : Prop where
  | nodes (element : Nat) (blocks : List NestedBlock) (once : Bool)
      (operations : c'.block.operations = c.block.operations ++ [.setNodes element values blocks once false])
      (effects : c'.block.effects = c.block.effects) (pieces : c'.frame.childTemplates = [])
  | literals (literals : List String) (hliterals : values.mapM Expression.literal? = some literals)
      (block : c'.block = c.block) (pieces : c'.frame.childTemplates = literals.map Html.escapeText)
  | once (parent : Nat) (operations : c'.block.operations =
        c.block.operations ++ [.getTextChild parent, .setText parent values true])
      (effects : c'.block.effects = c.block.effects) (pieces : c'.frame.childTemplates = [" "])
  | effect (parent : Nat) (triggers : List Expression)
      (operations : c'.block.operations = c.block.operations ++ [.getTextChild parent])
      (effects : c'.block.effects = c.block.effects ++ [⟨triggers, [.setText parent values true]⟩])
      (pieces : c'.frame.childTemplates = [" "])

theorem holdsText_lowerTextContainer (hminds : MindsAround visit) (hbalanced : Balanced visit)
    (children : List Visited) (hc : Collecting c) :
    HoldsText c (lowerTextContainer visit children c).2 (children.filterMap groupValue?) ∧
      ∀ s ∈ children, (s.path, textPurpose) ∈ (lowerTextContainer visit children c).2.seen := by
  obtain ⟨seen, hgroup, hall, -⟩ := groupValues_eq children c
  generalize children.filterMap groupValue? = values at hgroup ⊢
  simp only [lowerTextContainer, runText, prepareContainer, run_bind, hgroup]
  split
  · let c₁ := (setChildTemplates [] { c with seen }).2
    let c₂ := (reference c₁).2
    have hc₂ : Collecting c₂ := (plain_reference.grows c₁).collecting ⟨hc.collects, hc.goesOn⟩
    obtain ⟨hframe, -⟩ := frame_nestedBlocks hminds hbalanced
      (fun _ (hr : _ ∈ nestedRoots children) => tag?_of_mem_nestedRoots hr) hc₂
    have hblock : (nestedBlocks visit (nestedRoots children) c₂).2.block = c.block :=
      (block_nestedBlocks hbalanced _ hc₂).trans (block_reference c₁)
    refine ⟨.nodes (reference c₁).1 (nestedBlocks visit (nestedRoots children) c₂).1
      (nestedBlocks visit (nestedRoots children) c₂).2.frame.once ?_ ?_ ?_, fun s hs => ?_⟩
    · exact congrArg (fun b => OpenBlock.operations b ++ [_]) hblock
    · show (nestedBlocks visit (nestedRoots children) c₂).2.block.effects = c.block.effects
      rw [hblock]
    · exact (congrArg Frame.childTemplates hframe).trans (frame_reference c₁).2.2.1
    · have hgrows := growing_nestedBlocks hbalanced.grows (nestedRoots children) c₂
      exact hgrows.seen _ ((reference_seen c₁).symm ▸ hall s hs)
  · cases hliterals : values.mapM Expression.literal? with
    | some literals => exact ⟨.literals literals hliterals rfl rfl, hall⟩
    | none =>
      let c₁ := (setChildTemplates [" "] { c with seen }).2
      let c₂ := (addOperation (.getTextChild (reference c₁).1) (reference c₁).2).2
      have hpieces := (frame_reference c₁).2.2.1
      have hblock : (reference c₁).2.block = c.block := block_reference c₁
      have hseen : ∀ s ∈ children, (s.path, textPurpose) ∈ c₂.seen := fun s hs =>
        (reference_seen c₁).symm ▸ hall s hs
      have hoperations : c₂.block.operations = c.block.operations ++ [.getTextChild (reference c₁).1] :=
        congrArg (fun b => OpenBlock.operations b ++ [_]) hblock
      have heffects : c₂.block.effects = c.block.effects := by
        show (reference c₁).2.block.effects = c.block.effects
        rw [hblock]
      change HoldsText c (registerEffect values (.setText (reference c₁).1 values true) .atEnd c₂).2 values ∧
        ∀ s ∈ children, (s.path, textPurpose) ∈
          (registerEffect values (.setText (reference c₁).1 values true) .atEnd c₂).2.seen
      rcases registerEffect_cases values (.setText (reference c₁).1 values true) .atEnd c₂ with
        ⟨_, heq, -⟩ | ⟨triggers, _, heq, -⟩
      · rw [heq]
        refine ⟨.once (reference c₁).1 ?_ heffects hpieces, hseen⟩
        refine (congrArg (· ++ [_]) hoperations).trans ?_
        rw [List.append_assoc, List.singleton_append]
      · rw [heq]
        exact ⟨.effect (reference c₁).1 triggers hoperations (congrArg (· ++ [_]) heffects) hpieces, hseen⟩

theorem textStep_of_holdsText (visit : Lower Unit) (hv : c.frame.node = some v)
    (hnew : (v.path, textPurpose) ∉ c.seen) (h : v.holdsText = true) :
    (textStep visit c).2 = (lowerTextContainer visit v.children c).2 := by
  obtain ⟨hexp, hall⟩ := Bool.and_eq_true_iff.mp h
  -- only an element has a tag
  have htag := (Bool.and_eq_true_iff.mp hall).1
  have hother : v.isTextLike = false := by
    match v, htag with
    | .node _ (.element _ _), _ => rfl
  have hprepare : prepareText c = prepareContainer v.children c := by
    rw [prepareText_of_other hv hother hnew, prepareChildren, if_pos hexp, if_pos hall]
  rw [textStep, run_bind, runText, run_bind, hprepare]
  rfl

/-! ## All children -/

theorem mapLastBranch_of_none {f : Branch → Branch} {plans : List NodePlan} (h : lastBranch? plans = none) :
    mapLastBranch f plans = plans := by
  induction plans with
  | nil => rfl
  | cons n plans ih =>
    rcases hop : n.operation with _ | op
    · simp only [lastBranch?, hop] at h
      simp only [mapLastBranch, hop, ih h]
    · cases op with
      | branch b into => simp [lastBranch?, hop] at h
      | _ => simp only [mapLastBranch, hop]

theorem attachBranch_children (otherwise : Nat → Otherwise) (p : Frame) :
    (p.attachBranch otherwise).plan.children.length = p.plan.children.length ∧
      ∀ (i : Nat) (n : NodePlan), p.plan.children[i]? = some n →
        (∀ b into, n.operation ≠ some (.branch b into)) →
        (p.attachBranch otherwise).plan.children[i]? = some n := by
  let f := fun b : Branch => b.attach (otherwise b.id)
  have heq : (p.attachBranch otherwise).plan.children = (mapLastBranch f p.plan.children.reverse).reverse := rfl
  rw [heq]
  cases hlast : lastBranch? p.plan.children.reverse with
  | none =>
    rw [mapLastBranch_of_none hlast, List.reverse_reverse]
    exact ⟨rfl, fun i n hn _ => hn⟩
  | some b =>
    obtain ⟨i', m, into, hm, hop, -, hset⟩ := lastBranch?_eq_some hlast f
    rw [hset]
    refine ⟨List.length_set, fun i n hn hother => ?_⟩
    have hne : i' ≠ i := by
      rintro rfl
      obtain rfl := Option.some.inj (hn.symm.trans hm)
      exact hother b into hop
    rw [List.getElem?_set_ne hne, hn]

theorem children_afterChild (hminds : MindsAround visit) (hc : Collecting c) (isFragment : Bool)
    (child : Visited) (index : Nat) : let c' := afterChild visit isFragment child index c
    ∃ siblings plan, c'.frame.plan.children = siblings ++ [plan] ∧
      siblings.length = c.frame.plan.children.length ∧
      (∀ (i : Nat) (n : NodePlan), c.frame.plan.children[i]? = some n →
        (∀ b into, n.operation ≠ some (.branch b into)) → siblings[i]? = some n) ∧
      c.frame.childTemplates <+: c'.frame.childTemplates := by
  intro c'
  have haround : AroundChanged (c.frame :: c.outer) (visit (c.enterChild child index)).2.outer :=
    (hminds _ child ((grows_enterChild child index c).collecting hc) rfl).1
  have hparent : ∃ p, (visit (c.enterChild child index)).2.outer = p :: c.outer ∧
      p.plan.children.length = c.frame.plan.children.length ∧
      (∀ (i : Nat) (n : NodePlan), c.frame.plan.children[i]? = some n →
        (∀ b into, n.operation ≠ some (.branch b into)) → p.plan.children[i]? = some n) ∧
      p.childTemplates = c.frame.childTemplates := by
    generalize (visit (c.enterChild child index)).2.outer = outer at haround
    cases haround with
    | slots h =>
      cases h with
      | same => exact ⟨c.frame, rfl, rfl, fun _ _ hn _ => hn, rfl⟩
      | slots _ _ slots => exact ⟨_, rfl, rfl, fun _ _ hn _ => hn, rfl⟩
    | attach h otherwise =>
      cases h with
      | same =>
        obtain ⟨hlength, hkept⟩ := attachBranch_children otherwise c.frame
        exact ⟨_, rfl, hlength, hkept, rfl⟩
      | slots _ _ slots =>
        obtain ⟨hlength, hkept⟩ := attachBranch_children otherwise { c.frame with slots }
        exact ⟨_, rfl, hlength, hkept, rfl⟩
  obtain ⟨p, houter, hlength, hkept, htemplates⟩ := hparent
  have heq : c' = _ := takeChild_eq houter
  rw [heq]
  refine ⟨p.plan.children, _, rfl, hlength, hkept, ?_⟩
  rw [← htemplates]
  cases isFragment with
  | false => exact List.prefix_append _ _
  | true => exact List.prefix_refl _

/-- What a text or an expression among the nodes `vs` comes to: it is markup, or it stands for the values of the
group that it leads, or it belongs to the group of another one. -/
inductive Share (vs : List Visited) (i : Nat) : Visited → String → Option Operation → Prop where
  | markup {path : Path} {content : String} {loc : Location} (hfree : ∀ j, ¬ Leads vs j i) :
      Share vs i (.node path (.text content loc)) (Html.escapeText content) none
  | leads {child : Visited} {id : Nat} {values : List Expression} {blocks : List NestedBlock} {once : Bool}
      (hleads : Leads vs i i) (hvalues : values.map some = (groupAt vs i).map groupValue?) :
      Share vs i child "" (some (.createNodes id values blocks once none))
  | led {child : Visited} {j : Nat} (hleads : Leads vs j i) (hne : j ≠ i) : Share vs i child "" none

/-- The state after the first children of the node `v` have been visited. -/
def afterFirst (visit : Lower Unit) (v : Visited) (k : Nat) (c : Context) : Context :=
  (lowerChildren visit v.isFragment 0 (v.children.take k) (beforeChildren visit c)).2

/-- Whether each text and each expression below the node `v` contributes exactly once. -/
structure ConservesTexts (visit : Lower Unit) (v : Visited) (c : Context) : Prop where
  /-- The children that are the text of an element are the values of one operation, or literal text. -/
  together : v.holdsText = true → ∃ values, values.map some = v.children.map groupValue? ∧
    HoldsText (approach c).2 (textStep visit (approach c).2).2 values ∧
    ∀ i < v.children.length, Adds v.isFragment (afterFirst visit v i c) (afterFirst visit v (i + 1) c) "" none
  /-- Otherwise nothing is added before the children, and each has its share. -/
  apart : v.holdsText = false → v.isTextLike = false →
    (textStep visit (approach c).2).2.block = (approach c).2.block ∧
    (textStep visit (approach c).2).2.frame = (approach c).2.frame ∧
    ∀ i child, v.children[i]? = some child → child.isTextLike = true →
      ∃ markup operation, Share v.children i child markup operation ∧
        Adds v.isFragment (afterFirst visit v i c) (afterFirst visit v (i + 1) c) markup operation
  /-- A text or expression belongs to one group at most. -/
  unique : ∀ i j j', Leads v.children j i → Leads v.children j' i → j = j'
  /-- A group is a part of the children, in their order. -/
  group : ∀ j, Leads v.children j j → ∃ a n, groupAt v.children j = (v.children.drop a).take n ∧
    ∀ i < v.children.length, a ≤ i ∧ i < a + n ↔ Leads v.children j i
  /-- What was added for a text or an expression stays. -/
  kept : ∀ i k child, v.children[i]? = some child → child.isTextLike = true → i < k → k ≤ v.children.length →
    (afterFirst visit v k c).frame.plan.children.length = k ∧
    (afterFirst visit v k c).frame.plan.children[i]? = (afterFirst visit v (i + 1) c).frame.plan.children[i]? ∧
    (afterFirst visit v (i + 1) c).frame.childTemplates <+: (afterFirst visit v k c).frame.childTemplates

theorem filterMap_of_isSome (h : ∀ s ∈ vs, (groupValue? s).isSome = true) :
    (vs.filterMap groupValue?).map some = vs.map groupValue? := by
  induction vs with
  | nil => rfl
  | cons s vs ih =>
    obtain ⟨e, he⟩ := Option.isSome_iff_exists.mp (h s List.mem_cons_self)
    simp only [List.filterMap_cons, he, List.map_cons, ih fun s hs => h s (List.mem_cons_of_mem _ hs)]

section

variable {o : LoweringOptions} (ho : o.collectErrors = true) {t : Template} {depth : Nat} {c : Context}
  (h : Arrives o t (depth + 1) c) {v : Visited}
  (hv : (beforeChildren (lowerNode .none depth) c).frame.node = some v)

include ho h hv

theorem arrives_textLike (hchild : v.children[i]? = some child) :
    ∃ d, depth = d + 1 ∧ Collecting (afterFirst (lowerNode .none depth) v i c) ∧
      Grows (beforeChildren (lowerNode .none depth) c) (afterFirst (lowerNode .none depth) v i c) ∧
      (afterFirst (lowerNode .none depth) v i c).frame.node = some v ∧
      afterFirst (lowerNode .none depth) v (i + 1) c = afterChild (lowerNode .none depth) v.isFragment child i
        (afterFirst (lowerNode .none depth) v i c) := by
  obtain ⟨-, hat⟩ := atChildren_of_node (arrived_of_arrives ho h) hv
  obtain ⟨d, hd⟩ := hat.depth_pos (List.mem_of_getElem? hchild)
  have hresumed := (hat.children hchild).2
  exact ⟨d, hd, hresumed.grows.collecting hat.collecting, hresumed.grows, hresumed.node.trans hv,
    lowerChildren_take_succ (balanced_lowerNode depth) v.isFragment hat.collecting hchild⟩

theorem adds_of_marked (hchild : v.children[i]? = some child) (htext : child.isTextLike = true)
    (hseen : (child.path, textPurpose) ∈ (afterFirst (lowerNode .none depth) v i c).seen) :
    Adds v.isFragment (afterFirst (lowerNode .none depth) v i c) (afterFirst (lowerNode .none depth) v (i + 1) c)
      "" none := by
  obtain ⟨d, rfl, hc', -, -, hnext⟩ := arrives_textLike ho h hv hchild
  rw [hnext]
  refine Renders.adds ?_ v.isFragment
  rw [lowerNode_of_isTextLike d ((grows_enterChild child i _).collecting hc') rfl htext]
  exact renders_seen rfl rfl rfl hseen

theorem share_child (hnot : v.holdsText = false)
    (hfull : ∀ s ∈ v.children, s.isTextLike = true → (groupValue? s).isSome = true)
    (hchild : v.children[i]? = some child) (htext : child.isTextLike = true) :
    ∃ markup operation, Share v.children i child markup operation ∧ Adds v.isFragment
      (afterFirst (lowerNode .none depth) v i c) (afterFirst (lowerNode .none depth) v (i + 1) c) markup
      operation := by
  have hlt := (List.getElem?_eq_some_iff.mp hchild).1
  have hmarked : (child.path, textPurpose) ∈ (afterFirst (lowerNode .none depth) v i c).seen ↔ _ :=
    marked_iff ho h hv hnot (Nat.le_of_lt hlt) hchild (Nat.le_refl i)
  by_cases hseen : (child.path, textPurpose) ∈ (afterFirst (lowerNode .none depth) v i c).seen
  · obtain ⟨j, hne, hleads⟩ := (hmarked.mp hseen).led
    exact ⟨"", none, .led hleads hne, adds_of_marked ho h hv hchild htext hseen⟩
  · obtain ⟨d, rfl, hc', -, hv', hnext⟩ := arrives_textLike ho h hv hchild
    have henter := (grows_enterChild child i (afterFirst (lowerNode .none (d + 1)) v i c)).collecting hc'
    rw [hnext]
    cases hkind : child.isText with
    | true =>
      obtain ⟨path, content, loc, rfl⟩ := Visited.exists_of_isText hkind
      refine ⟨_, none, .markup fun j hleads => ?_, Renders.adds ?_ v.isFragment⟩
      · have hne : j ≠ i := by
          rintro rfl
          have hexp := hleads.expression
          rw [hchild] at hexp
          cases hexp
        exact hseen (hmarked.mpr (hleads.marked hne))
      · rw [lowerNode_of_isTextLike d henter rfl htext]
        exact renders_text rfl rfl rfl rfl hseen
    | false =>
      have hexp := isExpression_of_isTextLike htext hkind
      have hleads : Leads v.children i i :=
        leads_self (by rw [hchild, Option.any_some, hexp]) (mt hmarked.mpr hseen)
      have hparent : (((afterFirst (lowerNode .none (d + 1)) v i c).enterChild child i).outer.head?.bind
          Frame.node) = some v := hv'
      have hmem : child ∈ groupAt v.children i := by
        refine List.mem_append_right _ (mem_run_iff.mpr ⟨i, Nat.le_refl i, hchild, ?_⟩)
        exact textRun_of_isExpression hleads.expression
      have hsome : ∀ s ∈ groupAt v.children i, (groupValue? s).isSome = true := fun s hs =>
        hfull s (mem_of_mem_groupAt hs) (isTextLike_of_mem_groupAt hs)
      have hvalues : ((groupAt v.children i).filterMap groupValue?).isEmpty = false := by
        obtain ⟨e, he⟩ := Option.isSome_iff_exists.mp (hsome child hmem)
        rw [List.isEmpty_eq_false_iff]
        exact List.ne_nil_of_mem (List.mem_filterMap.mpr ⟨child, hmem, he⟩)
      obtain ⟨id, blocks, once, hrenders⟩ := renders_expression rfl rfl d henter hparent hexp hseen
        hvalues
      rw [← lowerNode_of_isTextLike d henter rfl htext] at hrenders
      exact ⟨"", _, .leads hleads (filterMap_of_isSome hsome), hrenders.adds v.isFragment⟩

theorem length_afterFirst {k : Nat} (hk : k ≤ v.children.length) :
    (afterFirst (lowerNode .none depth) v k c).frame.plan.children.length = k := by
  induction k with
  | zero =>
    have hheeds := heeds_of_arrives .childless ho h
    have hnone := (heeds_beforeChildren .childless (arrived_of_arrives ho h).collecting hheeds depth).plan
    exact congrArg List.length hnone
  | succ k ih =>
    obtain ⟨d, -, hc', -, -, hnext⟩ := arrives_textLike ho h hv (List.getElem?_eq_getElem hk)
    obtain ⟨siblings, plan, hplans, hlength, -⟩ :=
      children_afterChild (around_lowerNode depth) hc' v.isFragment v.children[k] k
    rw [hnext, hplans, List.length_append, hlength, ih (by omega)]
    rfl

theorem kept_afterFirst {i k : Nat} (hik : i < k) (hk : k ≤ v.children.length) {n : NodePlan}
    (hn : (afterFirst (lowerNode .none depth) v (i + 1) c).frame.plan.children[i]? = some n)
    (hother : ∀ b into, n.operation ≠ some (.branch b into)) :
    (afterFirst (lowerNode .none depth) v k c).frame.plan.children[i]? = some n ∧
      (afterFirst (lowerNode .none depth) v (i + 1) c).frame.childTemplates <+:
        (afterFirst (lowerNode .none depth) v k c).frame.childTemplates := by
  induction k with
  | zero => cases hik
  | succ k ih =>
    rcases Nat.lt_or_ge i k with hlt | hge
    · obtain ⟨hplan, htemplates⟩ := ih hlt (by omega)
      obtain ⟨d, -, hc', -, -, hnext⟩ := arrives_textLike ho h hv (List.getElem?_eq_getElem hk)
      obtain ⟨siblings, plan, hplans, hlength, hkept, htemplates'⟩ :=
        children_afterChild (around_lowerNode depth) hc' v.isFragment v.children[k] k
      have hsibling := hkept i n hplan hother
      rw [hnext, hplans, List.getElem?_append_left (List.getElem?_eq_some_iff.mp hsibling).1]
      exact ⟨hsibling, htemplates.trans htemplates'⟩
    · obtain rfl : i = k := by omega
      exact ⟨hn, List.prefix_refl _⟩

theorem together_child (hholds : v.holdsText = true) :
    HoldsText (approach c).2 (textStep (lowerNode .none depth) (approach c).2).2
      (v.children.filterMap groupValue?) ∧
    ∀ i child, v.children[i]? = some child → child.isTextLike = true ∧ Adds v.isFragment
      (afterFirst (lowerNode .none depth) v i c) (afterFirst (lowerNode .none depth) v (i + 1) c) "" none := by
  obtain ⟨hexp, hall⟩ := Bool.and_eq_true_iff.mp hholds
  have hall := List.all_eq_true.mp (Bool.and_eq_true_iff.mp hall).2
  obtain ⟨e, he, -⟩ := List.any_eq_true.mp hexp
  have htext := Visited.isTextLike_of_child he
  obtain ⟨hv₁, hown⟩ := unmarked_approach ho h hv htext List.suffix_rfl (p := (v.path, textPurpose)) rfl
  have hc₁ := (nears_approach c).grows.collecting (arrived_of_arrives ho h).collecting
  have hrun := textStep_of_holdsText (lowerNode .none depth) hv₁ hown hholds
  obtain ⟨hheld, hmarked⟩ := holdsText_lowerTextContainer (around_lowerNode depth) (balanced_lowerNode depth)
    v.children hc₁
  rw [← hrun] at hheld hmarked
  refine ⟨hheld, fun i child hchild => ?_⟩
  have hmem := List.mem_of_getElem? hchild
  refine ⟨hall child hmem, adds_of_marked ho h hv hchild (hall child hmem) ?_⟩
  obtain ⟨-, -, -, hgrows, -⟩ := arrives_textLike ho h hv hchild
  refine hgrows.seen _ ?_
  rw [beforeChildren, (hushing_slotStep _).seen]
  exact hmarked child hmem

/-- Each text and each expression among the children of a node contributes exactly once. Its text is markup, or
it is one of the values of exactly one operation or of one text without expressions. The values keep the order
of the children: they are those of all children of an element that holds nothing else, or those of a group,
which is the text directly before the first expression of a run, if there is one, and all from it on in the
run. -/
theorem texts_contribute_once
    (hfull : ∀ s ∈ v.children, s.isTextLike = true → (groupValue? s).isSome = true) :
    ConservesTexts (lowerNode .none depth) v c := by
  refine
    { together := fun hholds => ?_
      apart := fun hnot htext => ?_
      unique := fun i j j' => Leads.unique
      group := fun j => Leads.group
      kept := fun i k child hchild htext hik hk => ?_ }
  · obtain ⟨hheld, hadds⟩ := together_child ho h hv hholds
    refine ⟨_, filterMap_of_isSome fun s hs => ?_, hheld, fun i hi => ?_⟩
    · obtain ⟨i, hi⟩ := List.mem_iff_getElem?.mp hs
      exact hfull s hs (hadds i s hi).1
    · exact (hadds i _ (List.getElem?_eq_getElem hi)).2
  · obtain ⟨hv₁, hown⟩ := unmarked_approach ho h hv htext List.suffix_rfl (p := (v.path, textPurpose)) rfl
    obtain ⟨seen, hrun, -⟩ := prepareChildren_of_not hnot (approach c).2
    rw [textStep_of_done ((prepareText_of_other hv₁ htext hown).trans hrun)]
    exact ⟨rfl, rfl, fun i child hchild htext' => share_child ho h hv hnot hfull hchild htext'⟩
  · have hadds : ∃ markup operation, (∀ b into, operation ≠ some (.branch b into)) ∧ Adds v.isFragment
        (afterFirst (lowerNode .none depth) v i c) (afterFirst (lowerNode .none depth) v (i + 1) c) markup
        operation := by
      cases hholds : v.holdsText with
      | true => exact ⟨"", none, nofun, ((together_child ho h hv hholds).2 i child hchild).2⟩
      | false =>
        obtain ⟨markup, operation, hshare, hadds⟩ := share_child ho h hv hholds hfull hchild htext
        exact ⟨markup, operation, by cases hshare <;> nofun, hadds⟩
    obtain ⟨markup, operation, hother, hadds⟩ := hadds
    obtain ⟨plan, hplans, hop, -⟩ := hadds.plan
    have hlast : (afterFirst (lowerNode .none depth) v (i + 1) c).frame.plan.children[i]? = some plan := by
      rw [hplans, List.getElem?_append_right, length_afterFirst ho h hv (by omega), Nat.sub_self]
      · rfl
      · exact Nat.le_of_eq (length_afterFirst ho h hv (by omega))
    obtain ⟨hplan, htemplates⟩ := kept_afterFirst ho h hv hik hk hlast (hop ▸ hother)
    exact ⟨length_afterFirst ho h hv hk, hplan.trans hlast.symm, htemplates⟩

end

/-- A text, an expression and another text in front of an element, and a text behind it: the first three are the
values of one operation, and the last one is markup. -/
theorem texts_contribute_once_around_element :
    let text := fun content => Node.text content .stub
    let t : Template := ⟨"", [text "a", .expression ⟨"x", false, .stub⟩ [] .stub, text "b",
      .element ⟨"p", .element, [], true, .stub⟩ [], text "c"], .stub⟩
    let c := Context.ofTemplate ⟨true, fun _ => false⟩ t
    Arrives ⟨true, fun _ => false⟩ t 9 c ∧
      (beforeChildren (lowerNode .none 8) c).frame.node = some (.root t) ∧
      ConservesTexts (lowerNode .none 8) (.root t) c := by
  intro text t c
  have harrives : Arrives ⟨true, fun _ => false⟩ t 9 c := .start
  have hnode : (beforeChildren (lowerNode .none 8) c).frame.node = some (.root t) :=
    node_ofTemplate rfl 8 rfl
  exact ⟨harrives, hnode, texts_contribute_once rfl harrives hnode (by decide +kernel)⟩

end Lower

end JsxTemplate
