import JsxTemplate.Script.Constant

/-!
# How constant expressions are composed

Literals are joined by operators to static expressions, and literals and globals are collected in arrays
and objects (`Composed`). A constant expression is composed in this way.
-/

namespace JsxTemplate.Script

namespace Kind

def isLiteral : Kind → Bool
  | .string _ | .number | .boolean | .null | .bigint => true
  | _ => false

/-- Whether nodes of this kind stand for their first part. -/
def isWrapper : Kind → Bool
  | .paren | .typed => true
  | _ => false

def isOperator : Kind → Bool
  | .unary | .binary _ | .logical _ | .conditional | .sequence | .template _ => true
  | _ => false

end Kind

namespace Tree

/-- What holds of a tree if it holds of its children and their children holds of all trees. -/
theorem induction {P : Tree → Prop}
    (h : ∀ kind span cs, (∀ c ∈ cs, P c ∧ ∀ d ∈ c.children, P d) → P (.node kind span cs)) (t : Tree) :
    P t := by
  suffices hboth : P t ∧ ∀ d ∈ t.children, P d from hboth.1
  refine @Tree.rec (fun t => P t ∧ ∀ d ∈ t.children, P d)
    (fun ts => ∀ t ∈ ts, P t ∧ ∀ d ∈ t.children, P d) ?_ ?_ ?_ t
  · exact fun kind span cs ih => ⟨h kind span cs ih, fun d hd => (ih d hd).1⟩
  · exact fun t ht => absurd ht List.not_mem_nil
  · exact fun t ts ht hts => List.forall_mem_cons.mpr ⟨ht, hts⟩

/-- The expressions in a part of an array or an object that its value depends on. -/
def contents : Tree → List Tree
  | .node .elision _ _ => []
  | .node .spread _ [t] => [t]
  | .node (.property _ computed) _ (key :: value :: _) => (if computed then [key] else []) ++ [value]
  | t => [t]

def isElement : Tree → Bool
  | .node (.property _ _) _ _ => false
  | _ => true

/-- Whether a part can stand in an object and is no function written as a property. -/
def isEntry : Tree → Bool
  | .node (.property form _) _ (_ :: _ :: _) => form == .plain || form == .shorthand
  | .node .spread _ [_] => true
  | _ => false

/-- Whether an expression is built from literals by operators. -/
inductive Static : Tree → Prop
  | literal {kind span cs} : kind.isLiteral = true → Static (.node kind span cs)
  | wrapped {kind span t ts} : kind.isWrapper = true → Static t → Static (.node kind span (t :: ts))
  | operation {kind span cs} : kind.isOperator = true → (∀ t ∈ cs, Static t) →
    Static (.node kind span cs)

/-- Whether an expression is built from literals and names known to the language by operators, arrays and
objects. -/
inductive Composed : Tree → Prop
  | literal {kind span cs} : kind.isLiteral = true ∨ kind = .regex → Composed (.node kind span cs)
  | global {name span cs} : (isGlobal name || isValueWord name) = true →
    Composed (.node (.reference name) span cs)
  | wrapped {kind span t ts} : kind.isWrapper = true → Composed t → Composed (.node kind span (t :: ts))
  | operation {kind span cs} : kind.isOperator = true → (∀ t ∈ cs, Composed t) →
    Composed (.node kind span cs)
  | array {span cs} : (∀ c ∈ cs, c.isElement = true) → (∀ c ∈ cs, ∀ t ∈ c.contents, Composed t) →
    Composed (.node .array span cs)
  | object {span cs} : (∀ c ∈ cs, c.isEntry = true) → (∀ c ∈ cs, ∀ t ∈ c.contents, Composed t) →
    Composed (.node .object span cs)

theorem Static.composed {t : Tree} (h : t.Static) : t.Composed := by
  induction h with
  | literal hkind => exact .literal (.inl hkind)
  | wrapped hkind _ ih => exact .wrapped hkind ih
  | operation hkind _ ih => exact .operation hkind ih

/-! ## Static expressions -/

theorem allAreStatic_iff {ts : List Tree} : allAreStatic ts = true ↔ ∀ t ∈ ts, t.isStatic = true := by
  induction ts with
  | nil => simp [allAreStatic]
  | cons t ts ih => rw [allAreStatic, Bool.and_eq_true, ih, List.forall_mem_cons]

theorem isStatic_iff {t : Tree} : t.isStatic = true ↔ t.Static := by
  constructor
  · induction t using Tree.induction with
    | h kind span cs ih =>
      intro h
      rw [isStatic.eq_def] at h
      cases kind with
      | string | number | boolean | null | bigint => exact .literal rfl
      | paren | typed =>
        cases cs with
        | nil => cases h
        | cons t ts => exact .wrapped rfl ((ih t List.mem_cons_self).1 h)
      | unary | binary | logical | conditional | sequence | template =>
        exact .operation rfl fun t ht => (ih t ht).1 (allAreStatic_iff.mp h t ht)
      | _ => cases h
  · intro h
    induction h with
    | @literal kind => cases kind <;> simp_all [isStatic, Kind.isLiteral]
    | @wrapped kind => cases kind <;> simp_all [isStatic, firstIsStatic, Kind.isWrapper]
    | @operation kind => cases kind <;> simp_all [isStatic, allAreStatic_iff, Kind.isOperator]

/-! ## Constant expressions -/

theorem elementsAreConstant_iff {cs : List Tree} : elementsAreConstant cs = true ↔
    (∀ c ∈ cs, c.isElement = true) ∧ ∀ c ∈ cs, ∀ t ∈ c.contents, t.isConstant = true := by
  induction cs with
  | nil => simp [elementsAreConstant]
  | cons c cs ih =>
    have hstep : elementsAreConstant (c :: cs) = true ↔
        (c.isElement = true ∧ ∀ t ∈ c.contents, t.isConstant = true) ∧ elementsAreConstant cs = true := by
      obtain ⟨kind, span, parts⟩ := c
      cases kind with
      | spread => rcases parts with _ | ⟨t, _ | _⟩ <;> simp [elementsAreConstant, contents, isElement]
      | property => simp [elementsAreConstant, isElement, isConstant, isStatic]
      | _ => simp [elementsAreConstant, contents, isElement]
    rw [hstep, ih, List.forall_mem_cons, List.forall_mem_cons, and_and_and_comm]

theorem propertiesAreConstant_iff {cs : List Tree} : propertiesAreConstant cs = true ↔
    (∀ c ∈ cs, c.isEntry = true) ∧ ∀ c ∈ cs, ∀ t ∈ c.contents, t.isConstant = true := by
  induction cs with
  | nil => simp [propertiesAreConstant]
  | cons c cs ih =>
    have hstep : propertiesAreConstant (c :: cs) = true ↔
        (c.isEntry = true ∧ ∀ t ∈ c.contents, t.isConstant = true) ∧ propertiesAreConstant cs = true := by
      obtain ⟨kind, span, parts⟩ := c
      cases kind with
      | spread => rcases parts with _ | ⟨t, _ | _⟩ <;> simp [propertiesAreConstant, contents, isEntry]
      | property form computed =>
        rcases parts with _ | ⟨key, _ | ⟨value, parts⟩⟩
        · simp [propertiesAreConstant, isEntry]
        · simp [propertiesAreConstant, isEntry]
        · cases computed <;> simp [propertiesAreConstant, contents, isEntry, and_assoc]
      | _ => simp [propertiesAreConstant, isEntry]
    rw [hstep, ih, List.forall_mem_cons, List.forall_mem_cons, and_and_and_comm]

theorem mem_contents {c t : Tree} (h : t ∈ c.contents) : t = c ∨ t ∈ c.children := by
  obtain ⟨kind, span, parts⟩ := c
  cases kind with
  | spread => rcases parts with _ | ⟨t, _ | _⟩ <;> simp_all [contents, children]
  | property form computed =>
    rcases parts with _ | ⟨key, _ | ⟨value, parts⟩⟩
    · simp_all [contents]
    · simp_all [contents]
    · cases computed <;> simp [contents, children] at h ⊢ <;> grind
  | _ => simp_all [contents]

theorem Composed.of_isConstant {t : Tree} (h : t.isConstant = true) : t.Composed := by
  induction t using Tree.induction with
  | h kind span cs ih =>
    have hparts : (∀ c ∈ cs, ∀ t ∈ c.contents, t.isConstant = true) →
        ∀ c ∈ cs, ∀ t ∈ c.contents, t.Composed := by
      intro hparts c hc t ht
      rcases mem_contents ht with rfl | hchild
      · exact (ih t hc).1 (hparts t hc t ht)
      · exact (ih c hc).2 t hchild (hparts c hc t ht)
    rw [isConstant.eq_def] at h
    cases kind with
    | paren | typed =>
      cases cs with
      | nil => cases h
      | cons t ts => exact .wrapped rfl ((ih t List.mem_cons_self).1 h)
    | reference => exact .global h
    | regex => exact .literal (.inr rfl)
    | object => exact .object (propertiesAreConstant_iff.mp h).1 (hparts (propertiesAreConstant_iff.mp h).2)
    | array => exact .array (elementsAreConstant_iff.mp h).1 (hparts (elementsAreConstant_iff.mp h).2)
    | _ => exact (isStatic_iff.mp h).composed

end Tree

end JsxTemplate.Script
