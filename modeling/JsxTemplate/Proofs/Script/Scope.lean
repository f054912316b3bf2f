import JsxTemplate.Script.Reference

/-!
# Which references are free

An occurrence is a place where a script refers to a variable, together with the functions that the
place lies in. A reference is left out if one of these functions introduces its name, and a function
introduces the names of all bindings in it, also those that stand in a block or in a function of their
own. So a function hides the names it introduces for itself, but also those that only an inner function
introduces, and a binding that no function surrounds hides nothing.
-/

namespace JsxTemplate.Script

/-- A place where a tree refers to a variable. -/
structure Occurrence where
  reference : Reference
  /-- The functions around it, the outermost first. -/
  functions : List Tree

namespace Tree

mutual

/-- The names that a tree introduces outside of the functions in it. -/
def looseBindings : Tree → List String
  | .node kind _ cs =>
    match kind with
    | .binding name => [name]
    | .arrow | .function => []
    | _ => looseBindingsOf cs

def looseBindingsOf : List Tree → List String
  | [] => []
  | t :: ts => looseBindings t ++ looseBindingsOf ts

end

/-- The names that a function introduces for itself: by its parameters, and in its body outside of the
functions there. -/
def ownBindings (f : Tree) : List String := looseBindingsOf f.children

end Tree

namespace Occurrence

/-- Whether a function around the place introduces the name for itself. -/
def IsBound (o : Occurrence) : Prop := ∃ f ∈ o.functions, o.reference.name ∈ f.ownBindings

instance (o : Occurrence) : Decidable o.IsBound :=
  inferInstanceAs (Decidable (∃ f ∈ o.functions, o.reference.name ∈ f.ownBindings))

/-- Whether a function around the place introduces the name, be it in a function of its own. -/
def IsHidden (o : Occurrence) : Prop := ∃ f ∈ o.functions, o.reference.name ∈ f.bindings

instance (o : Occurrence) : Decidable o.IsHidden :=
  inferInstanceAs (Decidable (∃ f ∈ o.functions, o.reference.name ∈ f.bindings))

def inside (f : Tree) (o : Occurrence) : Occurrence := { o with functions := f :: o.functions }

end Occurrence

namespace Tree

mutual

/-- The places where a tree refers to a variable. -/
def occurrences : Tree → List Occurrence
  | .node kind span cs =>
    match kind with
    | .reference name => [⟨⟨name, span.start, span.stop, false⟩, []⟩]
    | .property .shorthand _ =>
      match cs with
      | [_, .node (.reference name) span _] => [⟨⟨name, span.start, span.stop, true⟩, []⟩]
      | cs => occurrencesOf cs
    | .arrow | .function => (occurrencesOf cs).map (Occurrence.inside (.node kind span cs))
    | _ => occurrencesOf cs

def occurrencesOf : List Tree → List Occurrence
  | [] => []
  | t :: ts => occurrences t ++ occurrencesOf ts

end

def bindingsOf (ts : List Tree) : List String :=
  (nodesOf ts).filterMap fun n =>
    match n.kind with
    | .binding name => some name
    | _ => none

theorem bindingsOf_cons (t : Tree) (ts : List Tree) :
    bindingsOf (t :: ts) = t.bindings ++ bindingsOf ts := by
  rw [bindingsOf, nodesOf, List.filterMap_append]
  rfl

theorem bindingsOf_children_subset (t : Tree) : bindingsOf t.children ⊆ t.bindings := by
  obtain ⟨kind, span, cs⟩ := t
  rw [bindings, nodes]
  exact List.filterMap_subset _ (List.subset_cons_self _ _)

mutual

theorem looseBindings_subset : ∀ t : Tree, t.looseBindings ⊆ t.bindings
  | .node kind span cs => by
    have hchildren : looseBindingsOf cs ⊆ (Tree.node kind span cs).bindings :=
      List.Subset.trans (looseBindingsOf_subset cs) (bindingsOf_children_subset (.node kind span cs))
    unfold looseBindings
    split
    · simp [bindings, nodes, Tree.kind]
    · exact List.nil_subset _
    · exact List.nil_subset _
    · exact hchildren

theorem looseBindingsOf_subset : ∀ ts : List Tree, looseBindingsOf ts ⊆ bindingsOf ts
  | [] => List.nil_subset _
  | t :: ts => by
    rw [looseBindingsOf, bindingsOf_cons]
    exact List.append_subset.mpr
      ⟨List.subset_append_of_subset_left _ (looseBindings_subset t),
        List.subset_append_of_subset_right _ (looseBindingsOf_subset ts)⟩

end

/-- The references that are neither hidden nor to one of the given names. -/
def visible (introduced : List String) (os : List Occurrence) : List Reference :=
  (os.filter fun o => o.reference.name ∉ introduced ∧ ¬ o.IsHidden).map Occurrence.reference

theorem visible_append (introduced : List String) (os os' : List Occurrence) :
    visible introduced (os ++ os') = visible introduced os ++ visible introduced os' := by
  simp [visible]

theorem visible_map_inside (introduced : List String) (f : Tree) (os : List Occurrence) :
    visible introduced (os.map (Occurrence.inside f)) = visible (f.bindings ++ introduced) os := by
  have hinside : ∀ o : Occurrence,
      ((o.inside f).reference.name ∉ introduced ∧ ¬ (o.inside f).IsHidden)
        ↔ (o.reference.name ∉ f.bindings ++ introduced ∧ ¬ o.IsHidden) := by
    intro o
    simp only [Occurrence.IsHidden, Occurrence.inside, List.mem_cons, exists_eq_or_imp, List.mem_append,
      not_or]
    rw [and_left_comm, and_assoc]
  rw [visible, visible, List.filter_map, List.map_map]
  congr 1
  refine List.filter_congr fun o _ => ?_
  simp only [Function.comp_apply, decide_eq_decide]
  exact hinside o

theorem visible_singleton (introduced : List String) (name : String) (span : Span)
    (shorthand : Bool) :
    visible introduced [⟨⟨name, span.start, span.stop, shorthand⟩, []⟩]
      = referenceTo introduced name span shorthand := by
  by_cases h : name ∈ introduced <;> simp [visible, referenceTo, Occurrence.IsHidden, h]

mutual

/-- The references of a tree are those of its occurrences that are visible. -/
theorem references_eq (introduced : List String) :
    ∀ t : Tree, t.references introduced = visible introduced t.occurrences
  | .node kind span cs => by
    have ih := fun introduced => referencesOf_eq introduced cs
    unfold references occurrences
    split
    · exact (visible_singleton ..).symm
    · split
      · exact (visible_singleton ..).symm
      · simp_all
    · rw [visible_map_inside]
      exact ih _
    · rw [visible_map_inside]
      exact ih _
    · simp_all

theorem referencesOf_eq (introduced : List String) :
    ∀ ts : List Tree, referencesOf introduced ts = visible introduced (occurrencesOf ts)
  | [] => by simp [referencesOf, occurrencesOf, visible]
  | t :: ts => by
    rw [referencesOf, occurrencesOf, visible_append, references_eq introduced t,
      referencesOf_eq introduced ts]

end

end Tree

theorem Occurrence.IsBound.isHidden {o : Occurrence} (h : o.IsBound) : o.IsHidden := by
  obtain ⟨f, hf, hname⟩ := h
  have hloose := Tree.looseBindingsOf_subset f.children hname
  exact ⟨f, hf, Tree.bindingsOf_children_subset f hloose⟩

/-- The tree of a script, which is an expression or else a list of statements. -/
def tree? (script : String) : Option Tree := (readWhole script).or (readStatements script)

/-- There is a result for exactly the scripts that can be read. It lists the references in the order of
the source, each with the bytes it covers, and leaves out those that a function around them hides; among
these are all that such a function binds. -/
theorem references?_visible (script : String) :
    match tree? script with
    | none => references? script = none
    | some t => ∃ rs, references? script = some rs
        ∧ rs.Pairwise (fun a b => a.start ≤ b.start)
        ∧ rs.Perm ((t.occurrences.filter fun o => ¬ o.IsHidden).map Occurrence.reference)
        ∧ ∀ o ∈ t.occurrences, o.IsBound → o.IsHidden := by
  have hresult : references? script = (tree? script).map fun t =>
      (Tree.visible [] t.occurrences).mergeSort fun a b => a.start ≤ b.start := by
    simp only [references?, tree?, Tree.references_eq]
  cases htree : tree? script with
  | none => simpa [htree] using hresult
  | some t =>
    refine ⟨_, by simpa [htree] using hresult, ?_, ?_, fun o _ h => h.isHidden⟩
    · have hsorted : ((Tree.visible [] t.occurrences).mergeSort fun a b => a.start ≤ b.start).Pairwise
          fun a b => decide (a.start ≤ b.start) := by
        apply List.pairwise_mergeSort
        · intro a b c hab hbc
          simp only [decide_eq_true_eq] at hab hbc ⊢
          omega
        · intro a b
          simp only [Bool.or_eq_true, decide_eq_true_eq]
          omega
      simpa using hsorted
    · simpa [Tree.visible] using List.mergeSort_perm (Tree.visible [] t.occurrences) _

/-- The last variable of this script is outside of the function that introduces its name, and no
function binds it where it stands, yet it is left out. -/
theorem inner_binding_hides_outer_reference :
    ∃ t, tree? "() => (y => y)(y)" = some t
      ∧ (∃ o ∈ t.occurrences, o.reference = ⟨"y", 15, 16, false⟩ ∧ ¬ o.IsBound)
      ∧ references? "() => (y => y)(y)" = some [] := by
  refine ⟨(tree? "() => (y => y)(y)").get (by decide +kernel), by simp, ?_, by decide +kernel⟩
  decide +kernel

end JsxTemplate.Script
