import JsxTemplate.Proofs.Emission.Variables

/-!
# Values of constant expressions

Nothing in a constant expression calls, looks up, changes or makes anything, and all names in it are known
to the language. So its value is the same in all states of a component, and need not be watched
(`constant_value_in_all_states`). Operators in it join nothing but literals
(`isConstant_iff_operators_join_literals`).
-/

namespace JsxTemplate

namespace Script

/-! ## What takes part in an evaluation -/

/-- Whether a node of this kind calls, looks up, changes or makes something, so that its value may depend on
more than the values of its parts. -/
def Kind.acts : Kind → Bool
  | .call | .construct | .importCall | .tagged | .member | .chain | .metaProperty | .privateIn | .super
  | .assignment _ | .update | .arrow | .function | .classDefinition | .await | .yield | .instantiation
  | .jsxElement _ _ | .jsxFragment => true
  | _ => false

/-- Whether a node of this kind is no variable of a component and does not act. -/
structure Kind.Fixed (kind : Kind) : Prop where
  acts : kind.acts = false
  known : ∀ name, kind = .reference name → (isGlobal name || isValueWord name) = true

theorem Kind.fixed_of_composes {kind : Kind} (h : kind.isLiteral = true ∨ kind = .regex ∨
    kind.isWrapper = true ∨ kind.isOperator = true) : kind.Fixed := by
  constructor
  · revert h
    cases kind <;> simp [isLiteral, isWrapper, isOperator, acts]
  · rintro name rfl
    simp [isLiteral, isWrapper, isOperator] at h

/-- How a component evaluates expressions in a state. -/
structure Evaluation (S V : Type) where
  lookup : S → String → V
  /-- The value of a node, whose place says how it is written, from those of its parts. -/
  compute : Kind → Span → List V → V
  /-- The value of a node that acts, which may depend on the state in any way. -/
  act : S → Tree → V

namespace Tree

mutual

/-- The nodes of an expression that take part in its evaluation. Types and the names of properties do not. -/
def evaluated : Tree → List Tree
  | .node kind span cs => .node kind span cs ::
    match kind with
    | .reference _ | .this | .string _ | .number | .boolean | .null | .bigint | .regex | .elision | .type => []
    | .paren | .typed => firstEvaluated cs
    | .property _ computed => propertyEvaluated computed cs
    | _ => evaluatedOf cs

def firstEvaluated : List Tree → List Tree
  | [] => []
  | t :: _ => evaluated t

/-- The nodes of the key and the value of a property that take part in an evaluation. -/
def propertyEvaluated (computed : Bool) : List Tree → List Tree
  | key :: value :: _ => (if computed then evaluated key else []) ++ evaluated value
  | _ => []

def evaluatedOf : List Tree → List Tree
  | [] => []
  | t :: ts => evaluated t ++ evaluatedOf ts

end

section

variable {S V : Type} (ev : Evaluation S V) (s : S)

mutual

/-- The value of an expression in a state. -/
def value : Tree → V
  | .node kind span cs =>
    if kind.acts then ev.act s (.node kind span cs)
    else
      match kind with
      | .reference name => ev.lookup s name
      | .this | .string _ | .number | .boolean | .null | .bigint | .regex | .elision | .type =>
        ev.compute kind span []
      | .paren | .typed => ev.compute kind span (firstValue cs)
      | .property _ computed => ev.compute kind span (propertyValues computed cs)
      | _ => ev.compute kind span (valuesOf cs)

def firstValue : List Tree → List V
  | [] => []
  | t :: _ => [value t]

/-- The values of the key, if it has to be computed, and of what is behind it. -/
def propertyValues (computed : Bool) : List Tree → List V
  | key :: value :: _ => (if computed then [Tree.value key] else []) ++ [Tree.value value]
  | _ => []

def valuesOf : List Tree → List V
  | [] => []
  | t :: ts => value t :: valuesOf ts

end

end

def AllFixed (ts : List Tree) : Prop := ∀ t ∈ ts, t.kind.Fixed

theorem allFixed_nil : AllFixed [] := by simp [AllFixed]

theorem AllFixed.cons {t : Tree} {ts : List Tree} (ht : t.kind.Fixed) (h : AllFixed ts) : AllFixed (t :: ts) :=
  List.forall_mem_cons.mpr ⟨ht, h⟩

theorem AllFixed.left {ts ts' : List Tree} (h : AllFixed (ts ++ ts')) : AllFixed ts := fun t ht =>
  h t (List.mem_append_left ts' ht)

theorem AllFixed.right {ts ts' : List Tree} (h : AllFixed (ts ++ ts')) : AllFixed ts' := fun t ht =>
  h t (List.mem_append_right ts ht)

end Tree

/-! ## The value depends on what takes part -/

/-- Whether two states have the same values for all names that are known to the language. -/
def Evaluation.Agrees {S V : Type} (ev : Evaluation S V) (s s' : S) : Prop :=
  ∀ name, (isGlobal name || isValueWord name) = true → ev.lookup s name = ev.lookup s' name

namespace Tree

section

variable {S V : Type} {ev : Evaluation S V} {s s' : S}

mutual

/-- If all that takes part in an evaluation is fixed, only the names known to the language matter. -/
theorem value_eq_of_allFixed (h : ev.Agrees s s') : ∀ t : Tree, AllFixed t.evaluated → t.value ev s = t.value ev s'
  | .node kind span cs => by
    have hfirst := firstValue_eq_of_allFixed h cs
    have hproperty := fun computed => propertyValues_eq_of_allFixed h computed cs
    have hall := valuesOf_eq_of_allFixed h cs
    unfold evaluated value
    intro hfixed
    obtain ⟨hkind, hparts⟩ := List.forall_mem_cons.mp hfixed
    have hacts : kind.acts = false := hkind.acts
    simp only [hacts, Bool.false_eq_true, if_false]
    cases kind with
    | reference name => exact h name (hkind.known name rfl)
    | this | string _ | number | boolean | null | bigint | regex | elision | type => rfl
    | paren | typed => exact congrArg _ (hfirst hparts)
    | property form computed => exact congrArg _ (hproperty computed hparts)
    | _ => exact congrArg _ (hall hparts)

theorem firstValue_eq_of_allFixed (h : ev.Agrees s s') :
    ∀ ts : List Tree, AllFixed (firstEvaluated ts) → firstValue ev s ts = firstValue ev s' ts
  | [], _ => rfl
  | t :: _, hfixed => congrArg (fun v => [v]) (value_eq_of_allFixed h t hfixed)

theorem propertyValues_eq_of_allFixed (h : ev.Agrees s s') (computed : Bool) : ∀ ts : List Tree,
    AllFixed (propertyEvaluated computed ts) → propertyValues ev s computed ts = propertyValues ev s' computed ts
  | [], _ => rfl
  | [_], _ => rfl
  | key :: value :: _, hfixed => by
    have hkey := value_eq_of_allFixed h key
    rw [propertyValues, propertyValues, value_eq_of_allFixed h value hfixed.right]
    cases computed with
    | false => rfl
    | true => rw [if_pos rfl, if_pos rfl, hkey hfixed.left]

theorem valuesOf_eq_of_allFixed (h : ev.Agrees s s') :
    ∀ ts : List Tree, AllFixed (evaluatedOf ts) → valuesOf ev s ts = valuesOf ev s' ts
  | [], _ => rfl
  | t :: ts, hfixed => by
    rw [valuesOf, valuesOf, value_eq_of_allFixed h t hfixed.left, valuesOf_eq_of_allFixed h ts hfixed.right]

end

end

/-! ## What takes part in a constant expression -/

theorem mem_evaluatedOf {n : Tree} {ts : List Tree} : n ∈ evaluatedOf ts ↔ ∃ t ∈ ts, n ∈ t.evaluated := by
  induction ts with
  | nil => simp [evaluatedOf]
  | cons t ts ih => simp [evaluatedOf, ih]

theorem forall_evaluated_contents {Q : Tree → Prop} {c : Tree}
    (hpart : c.kind = .elision ∨ c.kind = .spread ∨ (∃ form computed, c.kind = .property form computed) → Q c) :
    (∀ n ∈ c.evaluated, Q n) ↔ ∀ t ∈ c.contents, ∀ n ∈ t.evaluated, Q n := by
  fun_cases contents c with
  | case1 => simpa [evaluated] using hpart (.inl rfl)
  | case2 => simpa [evaluated, evaluatedOf] using fun _ => hpart (.inr (.inl rfl))
  | case3 form computed =>
    have hself := hpart (.inr (.inr ⟨_, _, rfl⟩))
    cases computed <;> simp [evaluated, propertyEvaluated, hself, or_imp, forall_and]
  | case4 => simp

section

variable {Q : Tree → Prop} {kind : Kind} {span : Span} {t : Tree} {ts : List Tree}

theorem forall_evaluated_literal (h : kind.isLiteral = true ∨ kind = .regex) :
    (∀ n ∈ (Tree.node kind span ts).evaluated, Q n) ↔ Q (.node kind span ts) := by
  cases kind <;> simp_all [evaluated, Kind.isLiteral]

theorem forall_evaluated_wrapped (h : kind.isWrapper = true) :
    (∀ n ∈ (Tree.node kind span (t :: ts)).evaluated, Q n) ↔
      Q (.node kind span (t :: ts)) ∧ ∀ n ∈ t.evaluated, Q n := by
  cases kind <;> simp_all [evaluated, firstEvaluated, Kind.isWrapper]

theorem forall_evaluated_parts (h : kind.isOperator = true ∨ kind = .array ∨ kind = .object) :
    (∀ n ∈ (Tree.node kind span ts).evaluated, Q n) ↔
      Q (.node kind span ts) ∧ ∀ t ∈ ts, ∀ n ∈ t.evaluated, Q n := by
  have hparts : (∀ n ∈ evaluatedOf ts, Q n) ↔ ∀ t ∈ ts, ∀ n ∈ t.evaluated, Q n := by
    simp only [mem_evaluatedOf]
    grind
  cases kind <;> simp_all [evaluated, Kind.isOperator]

end

theorem Composed.allFixed {t : Tree} (h : t.Composed) : AllFixed t.evaluated := by
  induction h with
  | literal hkind => exact (forall_evaluated_literal hkind).mpr (Kind.fixed_of_composes (by tauto))
  | global hname =>
    refine .cons ⟨rfl, fun name' hname' => ?_⟩ allFixed_nil
    obtain rfl := Kind.reference.inj hname'
    exact hname
  | wrapped hkind _ ih => exact (forall_evaluated_wrapped hkind).mpr ⟨Kind.fixed_of_composes (by tauto), ih⟩
  | operation hkind _ ih =>
    exact (forall_evaluated_parts (.inl hkind)).mpr ⟨Kind.fixed_of_composes (by tauto), ih⟩
  | array _ _ ih | object _ _ ih =>
    refine (forall_evaluated_parts (by simp)).mpr ⟨⟨rfl, by simp [Tree.kind]⟩, fun c hc => ?_⟩
    refine (forall_evaluated_contents ?_).mpr (ih c hc)
    rintro (hkind | hkind | ⟨form, computed, hkind⟩) <;> exact hkind ▸ ⟨rfl, by simp⟩

/-! ## Operators -/

theorem Static.evaluated {t : Tree} (h : t.Static) : ∀ n ∈ t.evaluated, n.Static := by
  induction h with
  | literal hkind => exact (forall_evaluated_literal (.inl hkind)).mpr (.literal hkind)
  | wrapped hkind hinner ih => exact (forall_evaluated_wrapped hkind).mpr ⟨.wrapped hkind hinner, ih⟩
  | operation hkind hparts ih => exact (forall_evaluated_parts (.inl hkind)).mpr ⟨.operation hkind hparts, ih⟩

/-- Whether the operators in an expression join nothing but literals. -/
def JoinsLiterals (t : Tree) : Prop := ∀ n ∈ t.evaluated, n.kind.isOperator = true → n.Static

theorem Composed.isConstant_iff {t : Tree} (h : t.Composed) : t.isConstant = true ↔ t.JoinsLiterals := by
  have hskip : ∀ {n : Tree}, n.kind.isOperator = false → n.kind.isOperator = true → n.Static := by
    intro n hn hn'
    rw [hn] at hn'
    cases hn'
  induction h with
  | @literal kind span cs hkind =>
    have hconstant : (Tree.node kind span cs).isConstant = true := by
      cases kind <;> simp_all [isConstant, isStatic, Kind.isLiteral]
    rw [hconstant, JoinsLiterals, forall_evaluated_literal hkind]
    refine iff_of_true rfl (hskip ?_)
    cases kind <;> simp_all [Tree.kind, Kind.isLiteral, Kind.isOperator]
  | global hname => exact iff_of_true hname (List.forall_mem_singleton.mpr (hskip rfl))
  | @wrapped kind span t ts hkind _ ih =>
    have hconstant : (Tree.node kind span (t :: ts)).isConstant = t.isConstant := by
      cases kind <;> simp_all [isConstant, firstIsConstant, Kind.isWrapper]
    have hkind' : kind.isOperator = false := by
      revert hkind
      cases kind <;> simp [Kind.isWrapper, Kind.isOperator]
    rw [hconstant, JoinsLiterals, forall_evaluated_wrapped hkind]
    exact ⟨fun h => ⟨hskip hkind', ih.mp h⟩, fun h => ih.mpr h.2⟩
  | @operation kind span cs hkind _ _ =>
    have hconstant : (Tree.node kind span cs).isConstant = (Tree.node kind span cs).isStatic := by
      cases kind <;> simp_all [isConstant, Kind.isOperator]
    rw [hconstant, isStatic_iff]
    refine ⟨fun h n hn _ => h.evaluated n hn, fun h => ?_⟩
    exact ((forall_evaluated_parts (.inl hkind)).mp h).1 hkind
  | array hparts _ ih | object hparts _ ih =>
    have hcontents : ∀ c : Tree, (∀ n ∈ c.evaluated, n.kind.isOperator = true → n.Static) ↔
        ∀ t ∈ c.contents, t.JoinsLiterals := fun c => forall_evaluated_contents (by
      rintro (h | h | ⟨form, computed, h⟩) <;> exact hskip (h ▸ rfl))
    rw [JoinsLiterals, forall_evaluated_parts (by simp), isConstant]
    simp only [elementsAreConstant_iff, propertiesAreConstant_iff, hcontents]
    exact ⟨fun h => ⟨hskip rfl, fun c hc t ht => (ih c hc t ht).mp (h.2 c hc t ht)⟩,
      fun h => ⟨hparts, fun c hc t ht => (ih c hc t ht).mpr (h.2 c hc t ht)⟩⟩

theorem isConstant_iff {t : Tree} : t.isConstant = true ↔ t.Composed ∧ t.JoinsLiterals :=
  ⟨fun h => ⟨.of_isConstant h, (Composed.of_isConstant h).isConstant_iff.mp h⟩,
    fun ⟨h, hjoins⟩ => h.isConstant_iff.mpr hjoins⟩

end Tree

end Script

namespace Expression

/-- The words of the language and the globals are constant expressions, also apart from the list. The
receiver is constant only where it stands alone. -/
theorem isConstant_iff {e : Expression} (hscript : e.isStatic = false) :
    e.isConstant = true ↔ Text.trim e.content = "this" ∨
      ∃ t, Script.readWhole (Text.trim e.content) = some t ∧ t.isConstant = true := by
  have hwords : ∀ word ∈ ["true", "false", "null", "this"] ++ Script.globals,
      (word == "this" || (Script.readWhole word).any Script.Tree.isConstant) = true := by
    decide +kernel
  have hempty : Script.readWhole "" = none := by decide +kernel
  rw [← Option.any_eq_true, isConstant, hscript, if_neg Bool.false_ne_true]
  dsimp only
  split
  · rename_i hcontent
    rw [String.isEmpty_iff] at hcontent
    simp [hcontent, hempty]
  · split
    · rename_i hword
      rw [Bool.or_eq_true, Script.isValueWord, Script.isGlobal, List.contains_iff_mem, List.contains_iff_mem,
        ← List.mem_append] at hword
      simpa using hwords _ hword
    · rename_i hword
      have hthis : Text.trim e.content ≠ "this" := fun h => hword (by rw [h]; rfl)
      simp [hthis]

/-- The value of a constant expression is the same in all states of a component in which the names known to
the language have the same values: nothing else is named in it, and nothing in it acts. -/
theorem constant_value_in_all_states (e : Expression) (hscript : e.isStatic = false)
    (hconstant : e.isConstant = true) :
    ∃ t, Script.readWhole (Text.trim e.content) = some t ∧
      (∀ n ∈ t.evaluated, n.kind.acts = false ∧
        ∀ name, n.kind = .reference name → (Script.isGlobal name || Script.isValueWord name) = true) ∧
      ∀ {S V : Type} (ev : Script.Evaluation S V) (s s' : S), ev.Agrees s s' → t.value ev s = t.value ev s' := by
  obtain ⟨t, ht, hfixed⟩ : ∃ t, Script.readWhole (Text.trim e.content) = some t ∧
      Script.Tree.AllFixed t.evaluated := by
    rcases (isConstant_iff hscript).mp hconstant with hthis | ⟨t, ht, hconstant⟩
    · have hread : (Script.readWhole "this").any (·.kind == .this) = true := by decide +kernel
      obtain ⟨⟨kind, span, cs⟩, ht, hkind⟩ := Option.any_eq_true _ _ |>.mp hread
      obtain rfl : kind = .this := eq_of_beq hkind
      exact ⟨.node .this span cs, hthis ▸ ht, List.forall_mem_singleton.mpr ⟨rfl, by simp [Script.Tree.kind]⟩⟩
    · exact ⟨t, ht, (Script.Tree.Composed.of_isConstant hconstant).allFixed⟩
  exact ⟨t, ht, fun n hn => ⟨(hfixed n hn).acts, (hfixed n hn).known⟩, fun ev s s' h =>
    Script.Tree.value_eq_of_allFixed h t hfixed⟩

/-- In an object with an array, a computed key and a spread global nothing has to be watched. -/
theorem constant_value_in_all_states_object :
    let e := ofScript "\x7b a: [1, NaN], [-1 + 'k']: /x/g, ...(Math as any) \x7d"
    e.isConstant = true ∧ ∃ t, Script.readWhole (Text.trim e.content) = some t ∧
      (∀ n ∈ t.evaluated, n.kind.acts = false) ∧
      ∀ (ev : Script.Evaluation Nat Nat), ev.Agrees 0 1 → t.value ev 0 = t.value ev 1 := by
  intro e
  have hconstant : e.isConstant = true := by decide +kernel
  obtain ⟨t, ht, hfixed, hvalue⟩ := constant_value_in_all_states e rfl hconstant
  exact ⟨hconstant, t, ht, fun n hn => (hfixed n hn).1, fun ev => hvalue ev 0 1⟩

theorem changing_singleton (e : Expression) : Lower.changing [e] = if e.isConstant then [] else [e] := by
  cases h : e.isConstant <;> simp [Lower.changing, h]

theorem registerEffect_singleton (e : Expression) (op : Operation) (cursor : Lower.Cursor) (c : Context) :
    (Lower.registerEffect [e] op cursor c).2 =
      if c.frame.once || e.isConstant then c.act op cursor.operation
      else c.addEffect ⟨[e], [op]⟩ cursor.effect := by
  have hchanging := changing_singleton e
  by_cases hsilent : (c.frame.once || e.isConstant) = true
  · rw [if_pos hsilent, Lower.registerEffect_of_silent]
    exact ((Bool.or_eq_true _ _).mp hsilent).imp_right fun h => by rw [hchanging, if_pos h]
  · rw [if_neg hsilent]
    simp only [Bool.or_eq_true, not_or, Bool.not_eq_true] at hsilent
    rw [hsilent.2, if_neg Bool.false_ne_true] at hchanging
    rw [Lower.registerEffect_of_lively hsilent.1 (by simp [hchanging]), hchanging]

/-- An expression is constant exactly if it is built from literals and globals by arrays, objects and
operators, and its operators join nothing but literals. An operation for it alone then runs once, and an
attribute with this value is set once. -/
theorem isConstant_iff_operators_join_literals (e : Expression) :
    (e.isConstant = true ↔ e.isStatic = true ∨ Text.trim e.content = "this" ∨
      ∃ t, Script.readWhole (Text.trim e.content) = some t ∧ t.Composed ∧ t.JoinsLiterals) ∧
    (∀ op cursor (c : Context), (Lower.registerEffect [e] op cursor c).2 =
      if c.frame.once || e.isConstant then c.act op cursor.operation
      else c.addEffect ⟨[e], [op]⟩ cursor.effect) ∧
    ∀ (tag : Tag) element, ∀ s ∈ tag.settings element, s.expressions = [e] →
      s.isReactive false = !e.isConstant := by
  refine ⟨?_, registerEffect_singleton e, fun tag element s _ hs => ?_⟩
  · cases hscript : e.isStatic with
    | true => simp [isConstant, hscript]
    | false => simp only [isConstant_iff hscript, Script.Tree.isConstant_iff, Bool.false_eq_true, false_or]
  · cases h : e.isConstant <;> simp [Setting.isReactive, hs, changing_singleton, h]

/-- An attribute whose value is a list of a literal and a global is set once. -/
theorem isConstant_iff_operators_join_literals_list :
    let e := ofScript "[1, NaN]"
    let tag : Tag := ⟨"p", .element, [.attribute ⟨"id", none, .stub, some e, .stub⟩], true, .stub⟩
    ∃ s ∈ tag.settings 0, s.expressions = [e] ∧ s.isReactive false = false := by
  intro e tag
  have hsettings : (tag.settings 0).any (·.expressions == [e]) = true := by decide +kernel
  obtain ⟨s, hs, he⟩ := List.any_eq_true.mp hsettings
  have hexpressions : s.expressions = [e] := eq_of_beq he
  have hconstant : e.isConstant = true := by decide +kernel
  refine ⟨s, hs, hexpressions, ?_⟩
  rw [(isConstant_iff_operators_join_literals e).2.2 tag 0 s hs hexpressions, hconstant]
  rfl

/-- A sign before a global is built from constants, but is not constant. -/
theorem negative_infinity_not_constant :
    let e := ofScript "-Infinity"
    (∃ t, Script.readWhole (Text.trim e.content) = some t ∧ t.Composed) ∧ e.isConstant = false ∧
      ∀ op cursor (c : Context), c.frame.once = false →
        (Lower.registerEffect [e] op cursor c).2 = c.addEffect ⟨[e], [op]⟩ cursor.effect := by
  intro e
  have hread : (Script.readWhole (Text.trim e.content)).any (fun t =>
      t.kind == .unary && t.children.all (·.kind == .reference "Infinity")) = true := by decide +kernel
  have hconstant : e.isConstant = false := by decide +kernel
  obtain ⟨⟨kind, span, cs⟩, ht, hparts⟩ := Option.any_eq_true _ _ |>.mp hread
  rw [Bool.and_eq_true, List.all_eq_true] at hparts
  obtain rfl : kind = .unary := eq_of_beq hparts.1
  refine ⟨⟨_, ht, .operation rfl fun c hc => ?_⟩, hconstant, fun op cursor c honce => ?_⟩
  · obtain ⟨kind, span, cs⟩ := c
    obtain rfl : kind = .reference "Infinity" := eq_of_beq (hparts.2 _ hc)
    exact .global (by decide)
  · rw [registerEffect_singleton, honce, hconstant]
    rfl

end Expression

end JsxTemplate
