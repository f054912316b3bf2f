import JsxTemplate.Lowering.Context
import Mathlib.Data.List.Basic

/-!
# Recognizing directives

Whether an element has a directive is asked in three ways: by the part of a name in front of its first
underscore (`Tag.hasDirective`), by the directive that an attribute is read as (`Tag.directive?`), and by the
name as it was written (`Visited.hasAttribute`). They differ in what they make of modifiers: in a name with an
argument the underscores belong to the directive, and a name with modifiers is not the one that was asked for.
-/

namespace JsxTemplate

variable {t : Tag} {a : Attribute} {d : Directive} {name : String} {body : List Char}

/-- An attribute has the name of a directive and nothing behind it. -/
def Attribute.IsNamed (a : Attribute) (name : String) : Prop :=
  a.name.toList = 'v' :: '-' :: name.toList

/-- An attribute has the name of a directive with modifiers behind it. -/
def Attribute.IsModified (a : Attribute) (name : String) : Prop :=
  ∃ modifiers, a.name.toList = 'v' :: '-' :: (name.toList ++ '_' :: modifiers)

/-- A name starts like that of a directive if it has the same part in front of the first underscore. -/
theorem Attribute.splitModifiers_eq_iff (h : a.name.toList = 'v' :: '-' :: body)
    (hplain : '_' ∉ name.toList) :
    (Directive.splitModifiers body).1 = name ↔ a.IsNamed name ∨ a.IsModified name := by
  simp only [IsNamed, IsModified, h, List.cons.injEq, true_and]
  constructor
  · intro hname
    by_cases hmem : '_' ∈ body
    · obtain ⟨front, modifiers, rfl, hfront⟩ := List.eq_append_cons_of_mem hmem
      rw [Directive.splitModifiers, List.splitOn_append_cons_self_of_not_mem hfront] at hname
      exact Or.inr ⟨modifiers, by rw [← hname, String.toList_ofList]⟩
    · rw [Directive.splitModifiers, List.splitOn_eq_singleton hmem] at hname
      exact Or.inl (by rw [← hname, String.toList_ofList])
  · rintro (rfl | ⟨modifiers, rfl⟩)
    · rw [Directive.splitModifiers, List.splitOn_eq_singleton hplain]
      exact String.ofList_toList
    · rw [Directive.splitModifiers, List.splitOn_append_cons_self_of_not_mem hplain]
      exact String.ofList_toList

theorem Attribute.exists_body (h : a.IsNamed name ∨ a.IsModified name) :
    ∃ body, a.name.toList = 'v' :: '-' :: body := by
  rcases h with h | ⟨modifiers, h⟩
  · exact ⟨_, h⟩
  · exact ⟨_, h⟩

namespace Tag

theorem directiveBody?_eq_some_iff : directiveBody? a = some body ↔ a.name.toList = 'v' :: '-' :: body := by
  constructor
  · intro h
    rw [directiveBody?] at h
    split at h
    · next hname => rw [hname, Option.some.inj h]
    · cases h
  · intro h
    simp only [directiveBody?, h]

theorem name_ofAttribute (h : a.name.toList = 'v' :: '-' :: body) (onComponent : Bool) :
    (Directive.ofAttribute a onComponent).name =
      if a.arg.isNone then (Directive.splitModifiers body).1 else String.ofList body := by
  simp only [Directive.ofAttribute, h, Directive.ofBody]
  cases a.arg <;> rfl

theorem hasDirective_iff {names : List String} (hplain : ∀ name ∈ names, '_' ∉ name.toList) :
    t.hasDirective names = true ↔
      ∃ a ∈ t.attributes, ∃ name ∈ names, a.IsNamed name ∨ a.IsModified name := by
  rw [hasDirective, List.any_eq_true]
  refine exists_congr fun a => and_congr_right fun _ => ?_
  simp only [Option.any_eq_true, directiveBody?_eq_some_iff, List.contains_iff_mem]
  constructor
  · rintro ⟨body, hbody, hmem⟩
    exact ⟨_, hmem, (a.splitModifiers_eq_iff hbody (hplain _ hmem)).mp rfl⟩
  · rintro ⟨name, hmem, hname⟩
    obtain ⟨body, hbody⟩ := a.exists_body hname
    exact ⟨body, hbody, by rwa [(a.splitModifiers_eq_iff hbody (hplain _ hmem)).mpr hname]⟩

theorem directive?_isSome_iff (hplain : '_' ∉ name.toList) :
    (t.directive? name).isSome = true ↔
      ∃ a ∈ t.attributes, a.IsNamed name ∨ a.arg = none ∧ a.IsModified name := by
  rw [directive?, List.findSome?_isSome_iff]
  refine exists_congr fun a => and_congr_right fun _ => ?_
  dsimp only
  rw [Option.isSome_ite, Bool.and_eq_true, Option.isSome_iff_exists, beq_iff_eq]
  simp only [directiveBody?_eq_some_iff]
  constructor
  · rintro ⟨⟨body, hbody⟩, hname⟩
    rw [name_ofAttribute hbody] at hname
    split at hname
    · next harg =>
      rw [a.splitModifiers_eq_iff hbody hplain] at hname
      exact hname.imp_right fun hmodified => ⟨Option.isNone_iff_eq_none.mp harg, hmodified⟩
    · exact Or.inl (by rw [Attribute.IsNamed, hbody, ← hname, String.toList_ofList])
  · rintro (hbody | ⟨harg, hmodified⟩)
    · refine ⟨⟨_, hbody⟩, ?_⟩
      rw [name_ofAttribute hbody, (a.splitModifiers_eq_iff hbody hplain).mpr (Or.inl hbody),
        String.ofList_toList, ite_self]
    · obtain ⟨body, hbody⟩ := a.exists_body (Or.inr hmodified)
      refine ⟨⟨body, hbody⟩, ?_⟩
      rw [name_ofAttribute hbody, if_pos (Option.isNone_iff_eq_none.mpr harg)]
      exact (a.splitModifiers_eq_iff hbody hplain).mpr (Or.inr hmodified)

theorem name_of_directive (h : t.directive? name = some d) : d.name = name := by
  obtain ⟨a, -, hd⟩ := List.exists_of_findSome?_eq_some h
  obtain ⟨hname, hd⟩ := Option.ite_none_right_eq_some.mp hd
  rw [← Option.some.inj hd]
  exact eq_of_beq (Bool.and_eq_true_iff.mp hname).2

theorem hasDirective_of_directive {names : List String} (h : t.directive? name = some d)
    (hplain : ∀ name ∈ names, '_' ∉ name.toList) (hmem : name ∈ names) : t.hasDirective names = true := by
  obtain ⟨a, ha, hname⟩ := (directive?_isSome_iff (hplain name hmem)).mp (by rw [h]; rfl)
  exact (hasDirective_iff hplain).mpr ⟨a, ha, name, hmem, hname.imp_right And.right⟩

theorem hasAttribute_iff {v : Visited} (hv : v.tag? = some t) :
    v.hasAttribute ["v-" ++ name] = true ↔ ∃ a ∈ t.attributes, a.IsNamed name := by
  rw [Visited.hasAttribute, hv, Option.any_some, List.any_eq_true]
  refine exists_congr fun a => and_congr_right fun _ => ?_
  rw [List.contains_iff_mem, List.mem_singleton, ← String.toList_inj, String.toList_append]
  rfl

theorem not_mem_of_builtin (h : isBuiltinDirective name = true) : '_' ∉ name.toList := by
  rw [isBuiltinDirective, List.contains_iff_mem] at h
  revert name
  decide

/-- The three ways to recognize a directive differ only for names with modifiers. The name as it was written
has none, the directive that is read may have some if there is no argument, and to look like a directive a
name may have any. -/
theorem recognizers_agree_up_to_modifiers {v : Visited} (hv : v.tag? = some t)
    (hname : isBuiltinDirective name = true) :
    (v.hasAttribute ["v-" ++ name] = true ↔ ∃ a ∈ t.attributes, a.IsNamed name) ∧
    ((t.directive? name).isSome = true ↔ v.hasAttribute ["v-" ++ name] = true ∨
      ∃ a ∈ t.attributes, a.arg = none ∧ a.IsModified name) ∧
    (t.hasDirective [name] = true ↔ (t.directive? name).isSome = true ∨
      ∃ a ∈ t.attributes, a.arg.isSome = true ∧ a.IsModified name) ∧
    ((∀ a ∈ t.attributes, ¬ a.IsModified name) →
      t.hasDirective [name] = (t.directive? name).isSome ∧
      v.hasAttribute ["v-" ++ name] = (t.directive? name).isSome) := by
  have hplain := not_mem_of_builtin hname
  have hfound : (t.directive? name).isSome = true ↔ v.hasAttribute ["v-" ++ name] = true ∨
      ∃ a ∈ t.attributes, a.arg = none ∧ a.IsModified name := by
    simp only [directive?_isSome_iff hplain, hasAttribute_iff hv, ← exists_or, ← and_or_left]
  have hlooks : t.hasDirective [name] = true ↔ (t.directive? name).isSome = true ∨
      ∃ a ∈ t.attributes, a.arg.isSome = true ∧ a.IsModified name := by
    simp only [hasDirective_iff (List.forall_mem_singleton.mpr hplain), List.mem_singleton, exists_eq_left]
    rw [directive?_isSome_iff hplain, ← exists_or]
    refine exists_congr fun a => ?_
    rw [← and_or_left, or_assoc, ← or_and_right]
    cases a.arg <;> simp
  refine ⟨hasAttribute_iff hv, hfound, hlooks, fun hnone => ⟨?_, ?_⟩⟩
  · rw [Bool.eq_iff_iff, hlooks]
    exact or_iff_left fun ⟨a, ha, _, hmodified⟩ => hnone a ha hmodified
  · rw [Bool.eq_iff_iff, hfound]
    exact (or_iff_left fun ⟨a, ha, _, hmodified⟩ => hnone a ha hmodified).symm

theorem recognizers_agree_up_to_modifiers_once :
    let t : Tag := ⟨"p", .element, [.attribute ⟨"v-once_a", some "b", .stub, none, .stub⟩], true, .stub⟩
    (Visited.node [] (.element t [])).tag? = some t ∧ isBuiltinDirective "once" = true ∧
      t.directive? "once" = none ∧ ∃ a ∈ t.attributes, a.arg.isSome = true ∧ a.IsModified "once" := by
  intro t
  have hname : isBuiltinDirective "once" = true := by decide
  have hnone : t.directive? "once" = none := by decide +kernel
  have hlooks : t.hasDirective ["once"] = true := by decide +kernel
  obtain ⟨-, -, hagree, -⟩ := recognizers_agree_up_to_modifiers (v := .node [] (.element t [])) rfl hname
  exact ⟨rfl, hname, hnone, (hagree.mp hlooks).resolve_left (by simp [hnone])⟩

/-- A name with a modifier looks like a branch and is read as one, but is not taken for one when the roots are
counted. With an argument it only looks like a branch. -/
theorem modified_branch_not_recognized :
    let tag (arg : Option String) : Tag :=
      ⟨"p", .element, [.attribute ⟨"v-if_a", arg, .stub, some ⟨"x", false, .stub⟩, .stub⟩], true, .stub⟩
    ((tag none).hasDirective ["if"] = true ∧ ((tag none).directive? "if").isSome = true ∧
      (Visited.node [] (.element (tag none) [])).hasAttribute ["v-if"] = false) ∧
    (tag (some "b")).hasDirective ["if"] = true ∧ (tag (some "b")).directive? "if" = none := by
  decide +kernel

end Tag

end JsxTemplate
