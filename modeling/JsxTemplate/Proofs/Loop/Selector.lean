import JsxTemplate.Loop.Selector

/-!
# Comparisons with a key

What is taken for a comparison of the key of a loop with a value from outside is one: the script has a
comparison for identity, one side of which is built from the key and literals, while the other side is
the value and does not refer to the variables of the loop. Nothing but the two sides is read when the
script is evaluated, so that its value is known from the two sides.

The side with the key need not be the key itself. It may also be computed from it, or be a literal.
-/

namespace JsxTemplate

namespace Script.Tree

/-! ## What an evaluation reads -/

mutual

/-- The references that are read when an expression is evaluated. Of an expression with a mark for the
type checker only the expression counts. -/
def reads (introduced : List String) : Tree → List Reference
  | .node kind span cs =>
    match kind with
    | .string _ | .number | .boolean | .null | .bigint => []
    | .paren | .typed => firstReads introduced cs
    | .reference name => referenceTo introduced name span false
    | .property .shorthand _ =>
      match cs with
      | [_, .node (.reference name) span _] => referenceTo introduced name span true
      | cs => readsOf introduced cs
    | .arrow | .function => readsOf ((Tree.node kind span cs).bindings ++ introduced) cs
    | _ => readsOf introduced cs

def firstReads (introduced : List String) : List Tree → List Reference
  | [] => []
  | t :: _ => reads introduced t

def readsOf (introduced : List String) : List Tree → List Reference
  | [] => []
  | t :: ts => reads introduced t ++ readsOf introduced ts

end

mutual

theorem reads_subset (introduced : List String) :
    ∀ t : Tree, t.reads introduced ⊆ t.references introduced
  | .node kind span cs => by
    have hall := fun introduced => readsOf_subset introduced cs
    have hfirst := firstReads_subset introduced cs
    unfold reads references
    split
    · exact List.nil_subset _
    · exact List.nil_subset _
    · exact List.nil_subset _
    · exact List.nil_subset _
    · exact List.nil_subset _
    · exact hfirst
    · exact hfirst
    · exact List.Subset.refl _
    · split
      · exact List.Subset.refl _
      · simp_all
    · exact hall _
    · exact hall _
    · simp_all

theorem firstReads_subset (introduced : List String) :
    ∀ ts : List Tree, firstReads introduced ts ⊆ referencesOf introduced ts
  | [] => List.nil_subset _
  | t :: ts => by
    rw [firstReads, referencesOf]
    exact List.subset_append_of_subset_left _ (reads_subset introduced t)

theorem readsOf_subset (introduced : List String) :
    ∀ ts : List Tree, readsOf introduced ts ⊆ referencesOf introduced ts
  | [] => List.nil_subset _
  | t :: ts => by
    rw [readsOf, referencesOf]
    exact List.append_subset.mpr
      ⟨List.subset_append_of_subset_left _ (reads_subset introduced t),
        List.subset_append_of_subset_right _ (readsOf_subset introduced ts)⟩

end

mutual

theorem reads_of_isStatic (introduced : List String) :
    ∀ t : Tree, t.isStatic = true → t.reads introduced = []
  | .node kind span cs => by
    have hall := allAreStatic_reads introduced cs
    have hfirst := firstIsStatic_reads introduced cs
    unfold isStatic reads
    split
    · exact fun _ => rfl
    · exact fun _ => rfl
    · exact fun _ => rfl
    · exact fun _ => rfl
    · exact fun _ => rfl
    · exact hfirst
    · exact hfirst
    · exact hall
    · exact hall
    · exact hall
    · exact hall
    · exact hall
    · exact hall
    · intro h
      cases h

theorem firstIsStatic_reads (introduced : List String) :
    ∀ ts : List Tree, firstIsStatic ts = true → firstReads introduced ts = []
  | [], _ => rfl
  | t :: _, h => reads_of_isStatic introduced t h

theorem allAreStatic_reads (introduced : List String) :
    ∀ ts : List Tree, allAreStatic ts = true → readsOf introduced ts = []
  | [], _ => rfl
  | t :: ts, h => by
    rw [allAreStatic, Bool.and_eq_true] at h
    rw [readsOf, reads_of_isStatic introduced t h.1, allAreStatic_reads introduced ts h.2]
    rfl

end

theorem reads_unwrapped (introduced : List String) (t : Tree) :
    t.unwrapped.reads introduced = t.reads introduced := by
  fun_induction unwrapped t with
  | case1 span inner rest ih | case2 span inner rest ih => rw [ih, reads, firstReads]
  | case3 t => rfl

/-! ## Nodes -/

theorem self_mem_nodes (t : Tree) : t ∈ t.nodes := by
  obtain ⟨kind, span, cs⟩ := t
  rw [nodes]
  exact List.mem_cons_self

mutual

theorem nodes_subset {n : Tree} : ∀ {t : Tree}, n ∈ t.nodes → n.nodes ⊆ t.nodes
  | .node kind span cs, h => by
    rw [nodes] at h
    rcases List.mem_cons.mp h with rfl | h
    · exact List.Subset.refl _
    · rw [nodes]
      exact List.subset_cons_of_subset _ (nodesOf_subset h)

theorem nodesOf_subset {n : Tree} : ∀ {ts : List Tree}, n ∈ nodesOf ts → n.nodes ⊆ nodesOf ts
  | t :: ts, h => by
    rw [nodesOf] at h ⊢
    rcases List.mem_append.mp h with h | h
    · exact List.subset_append_of_subset_left _ (nodes_subset h)
    · exact List.subset_append_of_subset_right _ (nodesOf_subset h)

end

theorem first_mem_nodes (kind : Kind) (span : Span) (t : Tree) (ts : List Tree) :
    t ∈ (Tree.node kind span (t :: ts)).nodes := by
  rw [nodes, nodesOf]
  exact List.mem_cons_of_mem _ (List.mem_append_left _ t.self_mem_nodes)

theorem unwrapped_mem_nodes (t : Tree) : t.unwrapped ∈ t.nodes := by
  fun_induction unwrapped t with
  | case1 span inner rest ih | case2 span inner rest ih => exact nodes_subset (first_mem_nodes _ _ _ _) ih
  | case3 t => exact t.self_mem_nodes

/-! ## Where names stand -/

mutual

/-- The places where a tree has a name. Each is given by the trees on the way to the name, with the name
itself as the last one; a tree comes with whether no expression stands there. -/
def namePaths (place : Bool) : Tree → List (List (Bool × Tree))
  | .node kind span cs =>
    match kind with
    | .reference _ | .name _ => [[(place, .node kind span cs)]]
    | _ => (namePathsOf kind.holdsPlaces cs).map ((place, .node kind span cs) :: ·)

def namePathsOf (place : Bool) : List Tree → List (List (Bool × Tree))
  | [] => []
  | t :: ts => namePaths place t ++ namePathsOf place ts

end

theorem self_mem_of_mem_namePaths {place : Bool} {t : Tree} {path : List (Bool × Tree)}
    (h : path ∈ t.namePaths place) : (place, t) ∈ path := by
  obtain ⟨kind, span, cs⟩ := t
  unfold namePaths at h
  split at h
  · rw [List.mem_singleton.mp h]
    exact List.mem_cons_self
  · rw [List.mem_singleton.mp h]
    exact List.mem_cons_self
  · obtain ⟨rest, -, rfl⟩ := List.mem_map.mp h
    exact List.mem_cons_self

end Script.Tree

namespace Loop

variable {isLocal : String → Bool} {t : Script.Tree} {a b : Span}

open Script

/-! ## Expressions built from the key -/

/-- Whether an expression stands in a place, and its text is that of the key up to blanks. -/
def IsKey (script key : String) (x : Bool × Script.Tree) : Prop :=
  x.1 = false ∧ x.2.kind.isExpression = true ∧
    Text.withoutBlanks (Text.slice script x.2.span.start x.2.span.stop) = key

mutual

theorem onlyKey_iff (script key : String) (place : Bool) : ∀ t : Script.Tree,
    onlyKey script key place t = true ↔
      ∀ path ∈ t.namePaths place, ∃ x ∈ path, IsKey script key x
  | .node kind span cs => by
    have hchildren := onlyKeyIn_iff script key kind.holdsPlaces cs
    have hkey : (!place && kind.isExpression
        && Text.withoutBlanks (Text.slice script span.start span.stop) == key) = true ↔
        IsKey script key (place, .node kind span cs) := by
      simp [IsKey, Script.Tree.kind, Script.Tree.span, and_assoc]
    unfold onlyKey
    by_cases h : IsKey script key (place, .node kind span cs)
    · rw [if_pos (hkey.mpr h)]
      exact ⟨fun _ path hpath => ⟨_, Script.Tree.self_mem_of_mem_namePaths hpath, h⟩, fun _ => rfl⟩
    · rw [if_neg (mt hkey.mp h)]
      unfold Script.Tree.namePaths
      split
      · simp only [List.mem_singleton, forall_eq, exists_eq_left, h, Bool.false_eq_true]
      · simp only [List.mem_singleton, forall_eq, exists_eq_left, h, Bool.false_eq_true]
      · rw [hchildren]
        simp only [List.mem_map, forall_exists_index, and_imp, forall_apply_eq_imp_iff₂, List.mem_cons,
          exists_eq_or_imp, h, false_or]

theorem onlyKeyIn_iff (script key : String) (place : Bool) : ∀ ts : List Script.Tree,
    onlyKeyIn script key place ts = true ↔
      ∀ path ∈ Script.Tree.namePathsOf place ts, ∃ x ∈ path, IsKey script key x
  | [] => by simp [onlyKeyIn, Script.Tree.namePathsOf]
  | t :: ts => by
    rw [onlyKeyIn, Bool.and_eq_true, onlyKey_iff script key place t, onlyKeyIn_iff script key place ts,
      Script.Tree.namePathsOf]
    simp only [List.mem_append, or_imp, forall_and]

end

/-- Whether a script is an expression in which every name stands in an expression that is the key, which
is given without blanks. -/
def IsBuiltFrom (key script : String) : Prop :=
  ∃ t, readWhole script = some t ∧ ∀ path ∈ t.namePaths false, ∃ x ∈ path, IsKey script key x

theorem isBuiltFrom_iff {key script : String} : isBuiltFrom key script = true ↔ IsBuiltFrom key script := by
  simp only [isBuiltFrom, IsBuiltFrom, Option.any_eq_true, onlyKey_iff]

/-! ## Comparisons -/

/-- Whether a comparison of two ranges of a script selects items: the first is built from the key, while
the second is not and refers to no variable of the loop. -/
structure Selects (script key : String) (isLocal : String → Bool) (a b : Span) : Prop where
  builtFrom : IsBuiltFrom key (Text.slice script a.start a.stop)
  notBuiltFrom : ¬ IsBuiltFrom key (Text.slice script b.start b.stop)
  outside : ∀ rs, references? (Text.slice script b.start b.stop) = some rs →
    ∀ r ∈ rs, isLocal r.name = false

theorem refersTo_eq_false {script : String} :
    refersTo isLocal script = false ↔
      ∀ rs, references? script = some rs → ∀ r ∈ rs, isLocal r.name = false := by
  cases h : references? script <;> simp [refersTo, h]

theorem selects_iff {script key : String} :
    selects script key isLocal (a, b) = true ↔ Selects script key isLocal a b := by
  have hiff : selects script key isLocal (a, b) = true ↔
      isBuiltFrom key (Text.slice script a.start a.stop) = true ∧
        ¬ isBuiltFrom key (Text.slice script b.start b.stop) = true ∧
        refersTo isLocal (Text.slice script b.start b.stop) = false := by
    simp [selects, and_assoc]
  rw [hiff, isBuiltFrom_iff, isBuiltFrom_iff, refersTo_eq_false]
  exact ⟨fun ⟨ha, hb, hr⟩ => ⟨ha, hb, hr⟩, fun h => ⟨h.1, h.2, h.3⟩⟩

/-- The ways to see the comparisons of a tree as such that select items. -/
def selections (script key : String) (isLocal : String → Bool) (t : Script.Tree) : List (Span × Span) :=
  (comparisons t).flatMap fun sides => (bothWays sides).filter (selects script key isLocal)

/-- Whether two ranges are the sides of a comparison, in one order or the other. -/
def AreSides (left right : Script.Tree) (a b : Span) : Prop :=
  (a = left.span ∧ b = right.span) ∨ (a = right.span ∧ b = left.span)

theorem mem_bothWays {left right : Script.Tree} :
    (a, b) ∈ bothWays (left.span, right.span) ↔ AreSides left right a b := by
  simp [bothWays, AreSides]

theorem mem_comparisons {sides : Span × Span} :
    sides ∈ comparisons t ↔ ∃ span left right,
      Script.Tree.node (.binary "===") span [left, right] ∈ t.nodes ∧
      sides = (left.span, right.span) := by
  rw [comparisons, List.mem_filterMap]
  constructor
  · rintro ⟨n, hn, hsides⟩
    split at hsides
    · next span left right => exact ⟨span, left, right, hn, (Option.some.inj hsides).symm⟩
    · cases hsides
  · rintro ⟨span, left, right, hn, rfl⟩
    exact ⟨_, hn, rfl⟩

theorem mem_selections {script key : String} :
    (a, b) ∈ selections script key isLocal t ↔ Selects script key isLocal a b ∧
      ∃ span left right, Script.Tree.node (.binary "===") span [left, right] ∈ t.nodes ∧
        AreSides left right a b := by
  simp only [selections, List.mem_flatMap, mem_comparisons, List.mem_filter, selects_iff]
  constructor
  · rintro ⟨_, ⟨span, left, right, hn, rfl⟩, hsides, hselects⟩
    exact ⟨hselects, span, left, right, hn, mem_bothWays.mp hsides⟩
  · rintro ⟨hselects, span, left, right, hn, hsides⟩
    exact ⟨_, ⟨span, left, right, hn, rfl⟩, mem_bothWays.mpr hsides, hselects⟩

/-- Whether a script is a condition with static branches that tests a comparison. -/
def Tests (t left right : Script.Tree) : Prop :=
  ∃ span test yes no, t.unwrapped = .node .conditional span [test, yes, no] ∧
    (∃ span, test.unwrapped = .node (.binary "===") span [left, right]) ∧
    yes.isStatic = true ∧ no.isStatic = true

theorem testedComparison?_eq_some {sides : Span × Span} :
    testedComparison? t = some sides ↔
      ∃ left right, Tests t left right ∧ sides = (left.span, right.span) := by
  constructor
  · intro h
    unfold testedComparison? at h
    split at h
    · next span test yes no ht =>
      split at h
      · next span' left right htest =>
        split at h
        · next hstatic =>
          rw [Bool.and_eq_true] at hstatic
          exact ⟨left, right, ⟨span, test, yes, no, ht, ⟨span', htest⟩, hstatic⟩, (Option.some.inj h).symm⟩
        · cases h
      · cases h
    · cases h
  · rintro ⟨left, right, ⟨span, test, yes, no, ht, ⟨span', htest⟩, hyes, hno⟩, rfl⟩
    simp [testedComparison?, ht, htest, hyes, hno]

theorem Tests.mem_nodes {t left right : Script.Tree} (h : Tests t left right) :
    ∃ span, Script.Tree.node (.binary "===") span [left, right] ∈ t.nodes := by
  obtain ⟨span, test, yes, no, ht, ⟨span', htest⟩, -, -⟩ := h
  refine ⟨span', ?_⟩
  rw [← htest]
  have hcondition : Script.Tree.node .conditional span [test, yes, no] ∈ t.nodes :=
    ht ▸ t.unwrapped_mem_nodes
  have htest := Script.Tree.nodes_subset hcondition (Script.Tree.first_mem_nodes _ _ _ _)
  exact Script.Tree.nodes_subset htest test.unwrapped_mem_nodes

theorem Tests.reads_eq {t left right : Script.Tree} (h : Tests t left right) (introduced : List String) :
    t.reads introduced = left.reads introduced ++ right.reads introduced := by
  obtain ⟨span, test, yes, no, ht, ⟨span', htest⟩, hyes, hno⟩ := h
  have hcompared : test.reads introduced = left.reads introduced ++ right.reads introduced := by
    rw [← Script.Tree.reads_unwrapped, htest]
    simp [Script.Tree.reads, Script.Tree.readsOf]
  rw [← Script.Tree.reads_unwrapped, ht]
  simp [Script.Tree.reads, Script.Tree.readsOf, Script.Tree.reads_of_isStatic introduced yes hyes,
    Script.Tree.reads_of_isStatic introduced no hno, hcompared]

section

variable {script key : String} {isLocal : String → Bool} {t : Script.Tree} {a b : Span}

theorem Selects.asymm (h : Selects script key isLocal a b) : ¬ Selects script key isLocal b a :=
  fun h' => h.notBuiltFrom h'.builtFrom

/-- The range that the only comparison which selects items compares with the key. -/
def single? (script key : String) (isLocal : String → Bool) (t : Script.Tree) : Option Span :=
  match selections script key isLocal t with
  | [(a, b)] =>
    if (t.references []).all fun r => r.start == a.start || r.start == b.start then some b else none
  | _ => none

/-- The range that a tested comparison compares with the key. -/
def tested? (script key : String) (isLocal : String → Bool) (t : Script.Tree) : Option Span :=
  (testedComparison? t).bind fun sides =>
    ((bothWays sides).find? (selects script key isLocal)).map Prod.snd

theorem selector?_eq : selector? script key isLocal = (readWhole script).bind fun t =>
    (single? script (Text.withoutBlanks key) isLocal t).or
      (tested? script (Text.withoutBlanks key) isLocal t) := rfl

theorem single?_eq_some : single? script key isLocal t = some b ↔
    ∃ a, selections script key isLocal t = [(a, b)] ∧
      ∀ r ∈ t.references [], r.start = a.start ∨ r.start = b.start := by
  unfold single?
  split
  · next a b' h =>
    have hall : ((t.references []).all fun r => r.start == a.start || r.start == b'.start) = true ↔
        ∀ r ∈ t.references [], r.start = a.start ∨ r.start = b'.start := by
      simp [List.all_eq_true]
    rw [Option.ite_none_right_eq_some, hall, h]
    constructor
    · rintro ⟨hreferences, hb⟩
      obtain rfl := Option.some.inj hb
      exact ⟨a, rfl, hreferences⟩
    · rintro ⟨a', hsame, hreferences⟩
      obtain ⟨rfl, rfl⟩ : a = a' ∧ b' = b := by simpa using hsame
      exact ⟨hreferences, rfl⟩
  · next h =>
    refine iff_of_false (by simp) ?_
    rintro ⟨a, hsame, -⟩
    exact h a b hsame

theorem tested?_eq_some : tested? script key isLocal t = some b ↔
    ∃ a left right, Tests t left right ∧ AreSides left right a b ∧ Selects script key isLocal a b := by
  unfold tested?
  rw [Option.bind_eq_some_iff]
  constructor
  · rintro ⟨sides, hsides, hmap⟩
    obtain ⟨left, right, htests, rfl⟩ := testedComparison?_eq_some.mp hsides
    obtain ⟨⟨a, _⟩, hfound, rfl⟩ := Option.map_eq_some_iff.mp hmap
    exact ⟨a, left, right, htests, mem_bothWays.mp (List.mem_of_find?_eq_some hfound),
      selects_iff.mp (List.find?_some hfound)⟩
  · rintro ⟨a, left, right, htests, hsides, hselects⟩
    refine ⟨_, testedComparison?_eq_some.mpr ⟨left, right, htests, rfl⟩, ?_⟩
    have hother : ¬ selects script key isLocal (b, a) = true := mt selects_iff.mp hselects.asymm
    have hselects := selects_iff.mpr hselects
    -- only one of the two ways to see the sides selects items
    rcases hsides with ⟨rfl, rfl⟩ | ⟨rfl, rfl⟩
    · simp [bothWays, hselects]
    · simp [bothWays, hselects, hother]

/-- There is a selector for exactly those scripts that compare the key with a value: either in the only
comparison that selects items, where every variable starts one of its sides, or in a condition with static
branches. -/
theorem selector?_eq_some_iff : selector? script key isLocal = some b ↔ ∃ t, readWhole script = some t ∧
    ∃ a, Selects script (Text.withoutBlanks key) isLocal a b ∧
      ((selections script (Text.withoutBlanks key) isLocal t = [(a, b)] ∧
          ∀ r ∈ t.references [], r.start = a.start ∨ r.start = b.start) ∨
        ∃ left right, Tests t left right ∧ AreSides left right a b) := by
  rw [selector?_eq, Option.bind_eq_some_iff]
  refine exists_congr fun t => and_congr_right fun _ => ?_
  rw [Option.or_eq_some_iff]
  constructor
  · rintro (h | ⟨-, h⟩)
    · obtain ⟨a, hselections, hreferences⟩ := single?_eq_some.mp h
      have hmem := mem_selections.mp (hselections ▸ List.mem_cons_self : (a, b) ∈ selections _ _ _ t)
      exact ⟨a, hmem.1, Or.inl ⟨hselections, hreferences⟩⟩
    · obtain ⟨a, left, right, htests, hsides, hselects⟩ := tested?_eq_some.mp h
      exact ⟨a, hselects, Or.inr ⟨left, right, htests, hsides⟩⟩
  · rintro ⟨a, hselects, ⟨hselections, hreferences⟩ | ⟨left, right, htests, hsides⟩⟩
    · exact Or.inl (single?_eq_some.mpr ⟨a, hselections, hreferences⟩)
    · have htested := tested?_eq_some.mpr ⟨a, left, right, htests, hsides, hselects⟩
      cases hsingle : single? script (Text.withoutBlanks key) isLocal t with
      | none => exact Or.inr ⟨rfl, htested⟩
      | some b' =>
        -- the tested comparison is then the only one
        obtain ⟨a', hselections, -⟩ := single?_eq_some.mp hsingle
        obtain ⟨span, hnode⟩ := htests.mem_nodes
        have hmem := mem_selections.mpr ⟨hselects, span, left, right, hnode, hsides⟩
        rw [hselections, List.mem_singleton, Prod.mk.injEq] at hmem
        exact Or.inl (by rw [hmem.2])

/-- What is taken for a selector is one side of a comparison for identity. It refers to no variable of the
loop, the other side is built from the key and literals, and nothing else is read when the script is
evaluated. There is such a result for exactly the scripts with a comparison of one of two shapes. -/
theorem selector?_compares_with_key (script key : String) (isLocal : String → Bool) (b : Span) :
    (selector? script key isLocal = some b → ∃ t span left right a, readWhole script = some t ∧
      Script.Tree.node (.binary "===") span [left, right] ∈ t.nodes ∧ AreSides left right a b ∧
      IsBuiltFrom (Text.withoutBlanks key) (Text.slice script a.start a.stop) ∧
      ¬ IsBuiltFrom (Text.withoutBlanks key) (Text.slice script b.start b.stop) ∧
      (∀ rs, references? (Text.slice script b.start b.stop) = some rs →
        ∀ r ∈ rs, isLocal r.name = false) ∧
      ∀ r ∈ t.reads [], r.start = a.start ∨ r.start = b.start ∨
        r ∈ left.reads [] ∨ r ∈ right.reads []) ∧
    (selector? script key isLocal = some b ↔ ∃ t, readWhole script = some t ∧
      ∃ a, Selects script (Text.withoutBlanks key) isLocal a b ∧
        ((selections script (Text.withoutBlanks key) isLocal t = [(a, b)] ∧
            ∀ r ∈ t.references [], r.start = a.start ∨ r.start = b.start) ∨
          ∃ left right, Tests t left right ∧ AreSides left right a b)) := by
  refine ⟨fun h => ?_, selector?_eq_some_iff⟩
  obtain ⟨t, hread, a, hselects, hshape⟩ := selector?_eq_some_iff.mp h
  rcases hshape with ⟨hselections, hreferences⟩ | ⟨left, right, htests, hsides⟩
  · have hmem : (a, b) ∈ selections script (Text.withoutBlanks key) isLocal t := by
      rw [hselections]
      exact List.mem_cons_self
    obtain ⟨-, span, left, right, hnode, hsides⟩ := mem_selections.mp hmem
    refine ⟨t, span, left, right, a, hread, hnode, hsides, hselects.builtFrom, hselects.notBuiltFrom,
      hselects.outside, fun r hr => ?_⟩
    exact (hreferences r (Script.Tree.reads_subset [] t hr)).imp_right Or.inl
  · obtain ⟨span, hnode⟩ := htests.mem_nodes
    refine ⟨t, span, left, right, a, hread, hnode, hsides, hselects.builtFrom, hselects.notBuiltFrom,
      hselects.outside, fun r hr => Or.inr (Or.inr ?_)⟩
    rw [htests.reads_eq] at hr
    exact List.mem_append.mp hr

end

/-- The selector of a comparison with the key. -/
theorem selector?_compares_with_key_row :
    selector? "chosen === row.id" "row.id" (· == "row") = some ⟨0, 6⟩ ∧
    ∃ t span left right a, readWhole "chosen === row.id" = some t ∧
      Script.Tree.node (.binary "===") span [left, right] ∈ t.nodes ∧ AreSides left right a ⟨0, 6⟩ := by
  have h : selector? "chosen === row.id" "row.id" (· == "row") = some ⟨0, 6⟩ := by decide +kernel
  obtain ⟨t, span, left, right, a, hread, hnode, hsides, -⟩ :=
    (selector?_compares_with_key "chosen === row.id" "row.id" (· == "row") ⟨0, 6⟩).1 h
  exact ⟨h, t, span, left, right, a, hread, hnode, hsides⟩

/-- A value is compared with something that is computed from the key, and there is a selector, although
neither side of the comparison is the key. -/
theorem selector_without_comparison_with_key :
    selector? "chosen === row.id + 1" "row.id" (· == "row") = some ⟨0, 6⟩ ∧
    ((readWhole "chosen === row.id + 1").map fun t => (comparisons t).map fun sides =>
        (Text.slice "chosen === row.id + 1" sides.1.start sides.1.stop,
          Text.slice "chosen === row.id + 1" sides.2.start sides.2.stop)) =
      some [("chosen", "row.id + 1")] := by
  decide +kernel

end Loop

end JsxTemplate
