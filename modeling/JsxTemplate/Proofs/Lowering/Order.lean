import JsxTemplate.Proofs.Lowering.Gathering
import JsxTemplate.Proofs.Lowering.Properties
import JsxTemplate.Proofs.Lowering.Reactivity

/-!
# The order in which properties are set

In every block, the operations that set the properties of elements stand in the order of the document. An
element is finished only after the nodes below it, so its settings are put where the block ended when the
walk came to it. What a visit adds to a block is therefore in order (`View.Ordered`): first the settings of
the element itself, then what was added for the nodes below it.
-/

namespace JsxTemplate

/-! ## The order of the document -/

/-- Whether a node comes before another one in the order of the document, where a node comes before those
below it. -/
def Path.Before (p q : Path) : Prop := p.reverse < q.reverse

theorem Path.before_of_suffix {p q : Path} {i : Nat} (h : (i :: p) <:+ q) : Path.Before p q := by
  obtain ⟨l, rfl⟩ := h
  have hrev : (l ++ i :: p).reverse = p.reverse ++ (i :: l.reverse) := by simp
  have hlt : p.reverse ++ [] < p.reverse ++ (i :: l.reverse) := List.append_left_lt (List.nil_lt_cons _ _)
  rw [List.append_nil] at hlt
  rw [Path.Before, hrev]
  exact hlt

theorem Path.before_of_lt {p q r : Path} {i j : Nat} (hlt : i < j) (hq : (i :: p) <:+ q)
    (hr : (j :: p) <:+ r) : Path.Before q r := by
  obtain ⟨l, rfl⟩ := hq
  obtain ⟨m, rfl⟩ := hr
  have hl : (l ++ i :: p).reverse = p.reverse ++ (i :: l.reverse) := by simp
  have hm : (m ++ j :: p).reverse = p.reverse ++ (j :: m.reverse) := by simp
  rw [Path.Before, hl, hm]
  exact List.append_left_lt (List.cons_lt_cons_iff.mpr (Or.inl hlt))

theorem Visited.children_before (v : Visited) :
    v.children.Pairwise fun a b => ∀ p q, a.path <:+ p → b.path <:+ q → Path.Before p q :=
  v.pairwise_children (R := fun a b => ∀ p q, a <:+ p → b <:+ q → Path.Before p q)
    fun _ _ _ hlt _ _ ha hb => Path.before_of_lt hlt ha hb

/-- Whether elements of the document stand at certain places of the template, in its order. -/
structure Listed (t : Template) (within : Path → Prop) (ws : List Owner) : Prop where
  native : ∀ w ∈ ws, w.tag.type = .element ∧ ∃ children, t.nodeAt? w.path = some (.element w.tag children)
  within : ∀ w ∈ ws, within w.path
  sorted : ws.Pairwise fun a b => Path.Before a.path b.path

namespace Listed

variable {t : Template} {within within' : Path → Prop} {ws ws' : List Owner}

theorem nil : Listed t within [] := ⟨by simp, by simp, .nil⟩

theorem mono (h : Listed t within ws) (hle : ∀ p, within p → within' p) : Listed t within' ws :=
  ⟨h.native, fun w hw => hle _ (h.within w hw), h.sorted⟩

theorem append (h : Listed t within ws) (h' : Listed t within' ws')
    (hbefore : ∀ p q, within p → within' q → Path.Before p q) :
    Listed t (fun p => within p ∨ within' p) (ws ++ ws') where
  native := fun w hw => (List.mem_append.mp hw).elim (h.native w) (h'.native w)
  within := fun w hw => (List.mem_append.mp hw).imp (h.within w) (h'.within w)
  sorted := List.pairwise_append.mpr ⟨h.sorted, h'.sorted, fun a ha b hb =>
    hbefore _ _ (h.within a ha) (h'.within b hb)⟩

end Listed

/-! ## What is listed in order -/

/-- Whether all that sets properties among what was added belongs to some elements, one after the other,
whose nodes are the current one or among those that were added. -/
structure View.Sets (added : View) (id : Option Nat) (ws : List Owner) : Prop where
  effects : added.effects.filter Effect.isProperty = ws.flatMap Owner.effects
  operations : added.operations.filter Operation.isProperty = ws.flatMap Owner.operations
  numbers : (ws.map Owner.number).Sublist (id.toList ++ added.outlines.flatMap Outline.ids)

namespace View.Sets

variable {added added' : View} {id : Option Nat} {ws ws' : List Owner}

theorem of_work (h : added.IsWork) (id : Option Nat) : added.Sets id [] where
  effects := by
    rw [List.flatMap_nil, List.filter_eq_nil_iff]
    exact fun e he => by simp [h.effects e he]
  operations := by
    rw [List.flatMap_nil, List.filter_eq_nil_iff]
    exact fun op hop => by simp [h.operations op hop]
  numbers := List.nil_sublist _

theorem append (h : added.Sets id ws) (h' : added'.Sets none ws') :
    (added.append added').Sets id (ws ++ ws') where
  effects := by rw [View.append, List.filter_append, h.effects, h'.effects, List.flatMap_append]
  operations := by rw [View.append, List.filter_append, h.operations, h'.operations, List.flatMap_append]
  numbers := by
    rw [View.append, List.map_append, List.flatMap_append, ← List.append_assoc]
    exact h.numbers.append h'.numbers

theorem withNumber (h : added.Sets none ws) (id : Option Nat) : added.Sets id ws :=
  ⟨h.effects, h.operations, h.numbers.trans (List.sublist_append_right _ _)⟩

end View.Sets

/-- Whether what was added at certain places of the template sets properties in the order of the
document. -/
def View.Ordered (t : Template) (within : Path → Prop) (id : Option Nat) (added : View) : Prop :=
  ∃ ws, Listed t within ws ∧ added.Sets id ws

namespace View.Ordered

variable {t : Template} {within within' : Path → Prop} {id id' : Option Nat} {added added' : View}

theorem of_work (h : added.IsWork) : added.Ordered t within id := ⟨[], .nil, .of_work h id⟩

theorem mono (h : added.Ordered t within id) (hle : ∀ p, within p → within' p) :
    added.Ordered t within' id := by
  obtain ⟨ws, hlisted, hsets⟩ := h
  exact ⟨ws, hlisted.mono hle, hsets⟩

theorem append (h : added.Ordered t within id) (h' : added'.Ordered t within' none)
    (hbefore : ∀ p q, within p → within' q → Path.Before p q) :
    (added.append added').Ordered t (fun p => within p ∨ within' p) id := by
  obtain ⟨ws, hlisted, hsets⟩ := h
  obtain ⟨ws', hlisted', hsets'⟩ := h'
  exact ⟨ws ++ ws', hlisted.append hlisted' hbefore, hsets.append hsets'⟩

theorem work (h : added.Ordered t within id) (hwork : added'.IsWork) :
    (added.append added').Ordered t within id := by
  obtain ⟨ws, hlisted, hsets⟩ := h
  have hall := hsets.append (.of_work hwork none)
  rw [List.append_nil] at hall
  exact ⟨ws, hlisted, hall⟩

theorem behindWork (hwork : added'.IsWork) (h : added.Ordered t within none) :
    (added'.append added).Ordered t within none := by
  obtain ⟨ws, hlisted, hsets⟩ := h
  exact ⟨ws, hlisted, (View.Sets.of_work hwork none).append hsets⟩

theorem number (h : added.Ordered t within id) (hid : id' = id ∨ id = none) :
    added.Ordered t within id' := by
  rcases hid with rfl | rfl
  · exact h
  · obtain ⟨ws, hlisted, hsets⟩ := h
    exact ⟨ws, hlisted, hsets.withNumber id'⟩

theorem node (h : added.Ordered t within id) (template : Option Nat) (present made : Bool) :
    View.Ordered t within none
      ⟨added.effects, added.operations, [.node id template present made added.outlines]⟩ := by
  obtain ⟨ws, hlisted, hsets⟩ := h
  refine ⟨ws, hlisted, hsets.effects, hsets.operations, ?_⟩
  simpa [Outline.ids_eq] using hsets.numbers

end View.Ordered

/-- Whether all that sets properties in a block, among the operations that are carried out once and among
those that are carried out again, belongs to elements of the document in its order. The nodes of these
elements follow each other in the plan of the block. -/
def Block.InOrder (t : Template) (b : Block) : Prop :=
  ∃ ws : List Owner,
    (∀ w ∈ ws, w.tag.type = .element ∧ ∃ children, t.nodeAt? w.path = some (.element w.tag children)) ∧
    (ws.Pairwise fun a b => Path.Before a.path b.path) ∧
    b.effects.filter Effect.isProperty = ws.flatMap Owner.effects ∧
    b.operations.filter Operation.isProperty = ws.flatMap Owner.operations ∧
    (ws.map Owner.number).Sublist (b.plan.nodes.filterMap NodePlan.id)

theorem View.Ordered.inOrder {t : Template} {within : Path → Prop} {b : Block}
    (h : View.Ordered t within b.plan.id ⟨b.effects, b.operations, b.plan.children.map NodePlan.outline⟩) :
    b.InOrder t := by
  obtain ⟨ws, hlisted, hsets⟩ := h
  refine ⟨ws, hlisted.native, hlisted.sorted, hsets.effects, hsets.operations, ?_⟩
  have hnumbers := hsets.numbers
  rw [← NodePlan.ids_outline, NodePlan.outline_eq, Outline.ids_eq]
  exact hnumbers

/-! ## In the walk -/

namespace Lower

def KeepsNumber (c c' : Context) : Prop :=
  c'.frame.plan.id = c.frame.plan.id ∨ c.frame.plan.id = none

theorem keepsNumber_of_numbering {c c' : Context} (h : Numbering c c') : KeepsNumber c c' :=
  h.imp (fun h => h.1) fun h => h.1

theorem keepsNumber_addToBlock (c : Context) : KeepsNumber c (addToBlock c).2 := by
  obtain ⟨roots, heq⟩ := addToBlock_eq c
  have hregister : (registerTemplate (reference c).2).2.frame.plan.id = (reference c).2.frame.plan.id := by
    rcases registerTemplate_cases (reference c).2 with ⟨hr, -⟩ | ⟨k, pieces, hr, -⟩ <;> rw [hr]
  have hid : (addToBlock c).2.frame.plan.id = (reference c).2.frame.plan.id := by
    rw [heq]
    exact hregister
  rw [KeepsNumber, hid]
  exact keepsNumber_of_numbering (plain_reference.tidy c).number

theorem inOrder_exitBlock {t : Template} {within : Path → Prop} {c : Context} (hsaved : c.saved ≠ []) (h : c.view.Ordered t within c.frame.plan.id) :
    (exitBlock c).1.InOrder t := by
  obtain ⟨-, heffects, hoperations, hid, hchildren⟩ := exitBlock_view hsaved
  have hall : View.Ordered t within (exitBlock c).1.plan.id ⟨(exitBlock c).1.effects,
      (exitBlock c).1.operations, (exitBlock c).1.plan.children.map NodePlan.outline⟩ := by
    rw [heffects, hoperations, hid, hchildren]
    exact h
  exact hall.inOrder

theorem ordered_exitElement {t : Template} {front back : View} {c : Context} {v : Visited} (hv : c.frame.node = some v)
    (hvalid : v.Valid t) (h : c.view = front.append back)
    (hordered : back.Ordered t (fun p => ∃ s ∈ v.children, s.path <:+ p) none) {cursor : Cursor}
    (hcursor : cursor = ⟨some front.effects.length, some front.operations.length⟩) :
    let c' := (exitElement .none cursor c).2
    Undisturbed c c' ∧ c'.saved.map SavedBlock.view = c.saved.map SavedBlock.view ∧
      ∃ added, c'.view = front.append added ∧ added.outlines = back.outlines ∧
        added.Ordered t (fun p => v.path <:+ p) c'.frame.plan.id := by
  intro c'
  subst hcursor
  have hbelow : ∀ p, (∃ s ∈ v.children, s.path <:+ p) → v.path <:+ p :=
    fun p ⟨s, hs, hp⟩ => (Visited.suffix_of_child hs).trans hp
  have hbelow' : ∀ id, back.Ordered t (fun p => v.path <:+ p) id :=
    fun id => (hordered.mono hbelow).number (Or.inr rfl)
  by_cases hother : ∀ path tag children, c.frame.node = some (.node path (.element tag children)) →
      tag.type = .template
  · have hrun : c' = c := congrArg Prod.snd (exitElement_of_other hother _)
    rw [hrun]
    exact ⟨.refl c, rfl, back, h, rfl, hbelow' _⟩
  · push Not at hother
    obtain ⟨path, tag, children, hnode, htemplate⟩ := hother
    obtain rfl := Option.some.inj (hv.symm.trans hnode)
    cases ht : tag.type with
    | template => exact absurd ht htemplate
    | component =>
      obtain ⟨work, hext, hwork⟩ := exitElement_component hv ht
        ⟨some front.effects.length, some front.operations.length⟩
      refine ⟨hext.toUndisturbed, hext.saved, back.append work, ?_, ?_, (hbelow' _).work hwork⟩
      · rw [hext.view, h, View.append_assoc]
      · rw [View.append, hwork.outlines, List.append_nil]
    | element =>
      obtain ⟨own, hown, added, houtlines, heffects, hoperations, hundisturbed, hview, hsaved⟩ :=
        exitElement_native hv ht h
      refine ⟨hundisturbed, hsaved, added, hview, houtlines, ?_⟩
      obtain ⟨ws, hlisted, hsets⟩ := hordered
      have hlisted' : Listed t (fun p => p = path) own := by
        rcases hown with rfl | ⟨number, once, rfl, -⟩
        · exact .nil
        · exact ⟨by simpa using ⟨ht, children, hvalid⟩, by simp, List.pairwise_singleton _ _⟩
      have hnumbers : (own.map Owner.number).Sublist c'.frame.plan.id.toList := by
        rcases hown with rfl | ⟨number, once, rfl, hid⟩
        · exact List.nil_sublist _
        · rw [hid]
          exact List.Sublist.refl _
      have hbefore : ∀ p q, p = path → (∃ s ∈ (Visited.node path (.element tag children)).children,
          s.path <:+ q) → Path.Before p q := by
        rintro p q rfl ⟨s, hs, hq⟩
        obtain ⟨⟨n, i⟩, -, rfl⟩ := List.mem_map.mp hs
        exact Path.before_of_suffix hq
      refine View.Ordered.mono ⟨own ++ ws, hlisted'.append hlisted hbefore, ?_, ?_, ?_⟩ fun p hp => ?_
      · rw [heffects, hsets.effects, List.flatMap_append]
      · rw [hoperations, hsets.operations, List.flatMap_append]
      · rw [houtlines, List.map_append]
        exact hnumbers.append hsets.numbers
      · rcases hp with rfl | hp
        · exact List.suffix_refl _
        · exact hbelow p hp

end Lower

end JsxTemplate
