import JsxTemplate.Proofs.Emission.Splices
import JsxTemplate.Proofs.Lowering.Properties
import JsxTemplate.Proofs.Script.Composition

/-!
# Variables and globals

The variables of loops and slots are replaced in every expression that is not constant, and what is set to
such an expression is set again when it changes. An expression is constant only if all names that its
evaluation reads are those of globals. So a variable may be missed only if it has the name of a global and
the expression reads nothing else.
-/

namespace JsxTemplate

namespace Script.Tree

mutual

/-- The names that are read when an expression is evaluated. The names of properties and all types are not
evaluated. -/
def uses : Tree → List String
  | .node kind _ cs =>
    match kind with
    | .reference name => [name]
    | .string _ | .number | .boolean | .null | .bigint | .regex | .elision | .type => []
    | .paren | .typed => firstUses cs
    | .property _ computed => propertyUses computed cs
    | _ => usesOf cs

def firstUses : List Tree → List String
  | [] => []
  | t :: _ => uses t

def propertyUses (computed : Bool) : List Tree → List String
  | key :: value :: _ => (if computed then uses key else []) ++ uses value
  | _ => []

def usesOf : List Tree → List String
  | [] => []
  | t :: ts => uses t ++ usesOf ts

end

def AllKnown (names : List String) : Prop := ∀ n ∈ names, (isGlobal n || isValueWord n) = true

theorem mem_usesOf {name : String} {ts : List Tree} : name ∈ usesOf ts ↔ ∃ t ∈ ts, name ∈ t.uses := by
  induction ts with
  | nil => simp [usesOf]
  | cons t ts ih => simp [usesOf, ih]

theorem mem_uses_contents {name : String} {c : Tree} :
    name ∈ c.uses ↔ ∃ t ∈ c.contents, name ∈ t.uses := by
  fun_cases contents c with
  | case1 => simp [uses]
  | case2 => simp [uses, usesOf]
  | case3 form computed => cases computed <;> simp [uses, propertyUses]
  | case4 => simp

theorem Composed.allKnown {t : Tree} (h : t.Composed) : AllKnown t.uses := by
  induction h with
  | @literal kind span cs hkind =>
    have hnone : (Tree.node kind span cs).uses = [] := by cases kind <;> simp_all [uses, Kind.isLiteral]
    simp [AllKnown, hnone]
  | global hname => exact List.forall_mem_singleton.mpr hname
  | @wrapped kind => cases kind <;> simp_all [uses, firstUses, Kind.isWrapper]
  | @operation kind _ cs _ _ ih =>
    have hall : AllKnown (usesOf cs) := by
      intro name hname
      obtain ⟨t, ht, hmem⟩ := mem_usesOf.mp hname
      exact ih t ht name hmem
    cases kind <;> simp_all [uses, Kind.isOperator]
  | array _ _ ih | object _ _ ih =>
    intro name hname
    obtain ⟨c, hc, hmem⟩ := mem_usesOf.mp hname
    obtain ⟨t, ht, hmem⟩ := mem_uses_contents.mp hmem
    exact ih c hc t ht name hmem

end Script.Tree

/-! ## Constant expressions -/

/-- Whether a variable is read when an expression is evaluated. -/
def Expression.Reads (e : Expression) (name : String) : Prop :=
  ∃ t, Script.readWhole (Text.trim e.content) = some t ∧ name ∈ t.uses

theorem Script.allKnown_words : ∀ word, (isValueWord word || isGlobal word) = true →
    ∀ t, readWhole word = some t → Tree.AllKnown t.uses := by
  have hwords : ∀ word ∈ ["true", "false", "null", "this"] ++ globals,
      (readWhole word).all (fun t => t.uses.all fun n => isGlobal n || isValueWord n) = true := by
    decide +kernel
  intro word hword t ht
  rw [Bool.or_eq_true, isValueWord, isGlobal, List.contains_iff_mem, List.contains_iff_mem,
    ← List.mem_append] at hword
  have hall := hwords word hword
  rw [ht, Option.all_some, List.all_eq_true] at hall
  exact hall

theorem Text.trim_of_blank {s : String} (h : isEmptyOrBlank s = true) : trim s = "" := by
  have hright : trimRight s.toList = [] := by
    rw [trimRight, List.reverse_eq_nil_iff, List.dropWhile_eq_nil_iff]
    intro c hc
    exact List.all_eq_true.mp h c (List.mem_reverse.mp hc)
  rw [trim, hright]
  rfl

/-- Whether a fragment stands for a variable. -/
def Fragment.isNamed : Fragment → Bool
  | .mapped _ _ (some _) => true
  | _ => false

namespace Expression

open Script (Reference)

variable {e : Expression} {names : Renaming}

theorem Reads.not_isConstant {name : String} (h : e.Reads name) (hscript : e.isStatic = false)
    (hname : (Script.isGlobal name || Script.isValueWord name) = false) :
    e.isConstant = false ∧ e.isEmpty = false := by
  obtain ⟨t, ht, hmem⟩ := h
  have hunknown : ¬ Script.Tree.AllKnown t.uses := fun hall => by
    rw [hall name hmem] at hname
    cases hname
  have hempty : Script.readWhole "" = none := by decide +kernel
  refine ⟨?_, Bool.eq_false_iff.mpr fun hblank => ?_⟩
  · rw [isConstant, if_neg (by simp [hscript])]
    dsimp only
    split
    · rfl
    · rw [if_neg fun hword => hunknown (Script.allKnown_words _ hword t ht), ht, Option.any_some]
      exact Bool.eq_false_iff.mpr fun hconstant => hunknown (Script.Tree.Composed.of_isConstant hconstant).allKnown
  · rw [Text.trim_of_blank hblank, hempty] at ht
    cases ht

def rewriting (e : Expression) (names : Renaming) (r : Reference) : Fragment :=
  .mapped (r.rewritten names) (e.subLocation r.start r.stop) (some r.name)

theorem filter_piece (last next : Nat) (code : Code) :
    ((if last < next then [e.piece last next] else []) ++ code).filter Fragment.isNamed =
      code.filter Fragment.isNamed := by
  split <;> rfl

theorem filter_substituteFrom (start stop last : Nat) (rs : List Reference) :
    (e.substituteFrom names start stop last rs).1.filter Fragment.isNamed =
      (rs.filter (Reference.isReplaced names start stop)).map (e.rewriting names) := by
  induction rs generalizing last with
  | nil =>
    have hpiece := e.filter_piece last stop []
    rwa [List.append_nil] at hpiece
  | cons r rs ih =>
    rw [substituteFrom_cons, List.filter_cons]
    split
    · rw [filter_piece, List.filter_cons_of_pos rfl, ih r.stop]
      rfl
    · exact ih last

theorem filter_code (hscript : e.isStatic = false) (hempty : e.isEmpty = false)
    (hconstant : e.isConstant = false) {rs : List Reference} (hrs : Script.references? e.content = some rs) :
    (e.code names).filter Fragment.isNamed =
      (rs.filter (Reference.isReplaced names 0 e.content.utf8ByteSize)).map (e.rewriting names) := by
  have hnamed := @filter_substituteFrom e names 0 e.content.utf8ByteSize 0 rs
  rw [code, hscript, if_neg Bool.false_ne_true, substituted?_eq, hempty, hconstant, hrs, Option.bind_some,
    substitute, substituteFrom_snd]
  cases hreplaced : rs.filter (Reference.isReplaced names 0 e.content.utf8ByteSize) with
  | nil => rfl
  | cons r rs =>
    rw [hreplaced] at hnamed
    exact hnamed

theorem code_of_isConstant (hscript : e.isStatic = false) (hconstant : e.isConstant = true) :
    e.code names = [.mapped e.content e.loc none] := by
  rw [code, hscript, if_neg Bool.false_ne_true, substituted?_eq, hconstant, Bool.or_true, if_pos rfl]
  rfl

/-- If evaluating an expression reads a variable that is not known to the language, all references in it
that have a replacement are replaced, and where not all is rendered only once, an operation that is added
for the expression runs again. All this holds for every expression that is not constant, in particular for
the properties of elements. A constant expression is written as it is, and an operation for it runs once. -/
theorem variables_replaced_unless_constant (e : Expression) (hscript : e.isStatic = false)
    (names : Renaming) :
    (∀ name, e.Reads name → (Script.isGlobal name || Script.isValueWord name) = false →
      e.isConstant = false ∧ e.isEmpty = false) ∧
    (e.isConstant = false → e.isEmpty = false →
      (∀ rs, Script.references? e.content = some rs → (e.code names).filter Fragment.isNamed =
        (rs.filter (Reference.isReplaced names 0 e.content.utf8ByteSize)).map (e.rewriting names)) ∧
      (∀ es op cursor (c : Context), e ∈ es → c.frame.once = false → e ∈ Lower.changing es ∧
        (Lower.registerEffect es op cursor c).2 = c.addEffect ⟨Lower.changing es, [op]⟩ cursor.effect) ∧
      ∀ (tag : Tag) element, ∀ s ∈ tag.settings element, e ∈ s.expressions → s.isReactive false = true) ∧
    (e.isConstant = true → e.code names = [.mapped e.content e.loc none] ∧
      ∀ op cursor (c : Context), (Lower.registerEffect [e] op cursor c).2 = c.act op cursor.operation) := by
  have hchanging : ∀ {es}, e.isConstant = false → e ∈ es → e ∈ Lower.changing es := fun hconstant he =>
    List.mem_filter.mpr ⟨he, by simp [hconstant]⟩
  refine ⟨fun name hreads => hreads.not_isConstant hscript, fun hconstant hempty =>
    ⟨fun rs => filter_code hscript hempty hconstant, fun es op cursor c he honce => ?_,
      fun tag element s _ he => ?_⟩, fun hconstant => ⟨code_of_isConstant hscript hconstant, ?_⟩⟩
  · have hmem := hchanging hconstant he
    exact ⟨hmem, congrArg Prod.snd (Lower.registerEffect_of_lively honce (List.ne_nil_of_mem hmem) op cursor)⟩
  · have hne := List.ne_nil_of_mem (hchanging hconstant he)
    simpa [Setting.isReactive] using hne
  · intro op cursor c
    have hnone : Lower.changing [e] = [] := by simp [Lower.changing, hconstant]
    exact congrArg Prod.snd (Lower.registerEffect_of_silent (Or.inr hnone) op cursor)

/-- The item of a loop is replaced deep inside of `{ a: [1, x] }`. -/
theorem variables_replaced_unless_constant_object :
    let e := ofScript "\x7b a: [1, x] \x7d"
    let names : Renaming := [("x", some "_for_item0.value")]
    e.Reads "x" ∧
      (e.code names).filter Fragment.isNamed = [.mapped "_for_item0.value" .stub (some "x")] := by
  intro e names
  obtain ⟨hreads, hwritten, -⟩ := variables_replaced_unless_constant e rfl names
  have hread : (Script.readWhole (Text.trim e.content)).any (fun t => t.uses.contains "x") = true := by
    decide +kernel
  obtain ⟨t, ht, hmem⟩ := (Option.any_eq_true _ _).mp hread
  have hx : e.Reads "x" := ⟨t, ht, List.contains_iff_mem.mp hmem⟩
  obtain ⟨hconstant, hempty⟩ := hreads "x" hx (by decide)
  have hrs : Script.references? e.content = some [⟨"x", 9, 10, false⟩] := by decide +kernel
  refine ⟨hx, ?_⟩
  rw [(hwritten hconstant hempty).1 _ hrs]
  decide +kernel

/-- A variable of a loop with the name of a global is not replaced where it stands alone, and what is set
to it is set once. -/
theorem global_name_wins :
    let e := ofScript "Math"
    let names : Renaming := [("Math", some "_for_item0.value")]
    Script.references? e.content = some [⟨"Math", 0, 4, false⟩] ∧ (e.code names).render = "Math" ∧
    ∀ op (c : Context), (Lower.addEffect [e] op c).2 = c.act op none := by
  refine ⟨by decide +kernel, by decide +kernel, fun op c => ?_⟩
  have hnone : Lower.changing [ofScript "Math"] = [] := by decide +kernel
  exact congrArg Prod.snd (Lower.registerEffect_of_silent (Or.inr hnone) op .atEnd)

end Expression

end JsxTemplate
