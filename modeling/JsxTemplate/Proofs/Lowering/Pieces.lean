import Mathlib.Logic.Relation
import JsxTemplate.Proofs.Lowering.Reactivity

/-!
# The table of markup

The pieces of markup are only ever added to the table, and none is added twice. So the index of a piece
denotes the same markup for as long as the walk goes on (`ContextStep`, `Reaches`). In the plan of a whole
template, all indices are those of a piece, and no piece is empty.
-/

namespace JsxTemplate

/-- What the walk can do to its state at once. -/
inductive ContextStep : Context → Context → Prop
  | note (event : Event) (c : Context) : ContextStep c (Lower.note event c).2
  | modifyFrame (f : Frame → Frame) (c : Context) : ContextStep c (Lower.modifyFrame f c).2
  | modifyParent (f : Frame → Frame) (c : Context) : ContextStep c (Lower.modifyParent f c).2
  | pushFrame (node : Visited) (index : Nat) (c : Context) : ContextStep c (Lower.pushFrame node index c).2
  | popFrame (c : Context) : ContextStep c (Lower.popFrame c).2
  | freshId (c : Context) : ContextStep c (Lower.freshId c).2
  | reference (c : Context) : ContextStep c (Lower.reference c).2
  | pushTemplate (content : String) (c : Context) : ContextStep c (Lower.pushTemplate content c).2
  | registerTemplate (c : Context) : ContextStep c (Lower.registerTemplate c).2
  | enterBlock (loc : Location) (isLoop : Bool) (c : Context) :
    ContextStep c (Lower.enterBlock loc isLoop c).2
  | exitBlock (c : Context) : ContextStep c (Lower.exitBlock c).2
  | discardTemplates (c : Context) : ContextStep c (Lower.discardTemplates c).2
  | registerOperation (op : Operation) (index : Option Nat) (c : Context) :
    ContextStep c (Lower.registerOperation op index c).2
  | registerEffect (expressions : List Expression) (op : Operation) (cursor : Lower.Cursor)
    (c : Context) : ContextStep c (Lower.registerEffect expressions op cursor c).2
  | noteRootTemplate (template : Option Nat) (c : Context) :
    ContextStep c (Lower.noteRootTemplate template c).2
  | giveBack (c : Context) : ContextStep c (Lower.giveBack c).2
  | markSeen (path : Path) (purpose : String) (c : Context) :
    ContextStep c (Lower.markSeen path purpose c).2
  | pushScope (names : List String) (c : Context) : ContextStep c (Lower.pushScope names c).2
  | popScope (count : Nat) (c : Context) : ContextStep c (Lower.popScope count c).2
  | addComponent (name : String) (c : Context) : ContextStep c (Lower.addComponent name c).2
  | addDirective (name : String) (c : Context) : ContextStep c (Lower.addDirective name c).2
  | noteReference (c : Context) : ContextStep c { c with hasReference := true }
  | report (code : ErrorCode) (loc : Option Location) (c : Context) :
    ContextStep c (Lower.report code loc c).2
  | fail (fault : Text.CutFault) (c : Context) : ContextStep c { c with fault := some fault }
  | remark (text : String) (c : Context) : ContextStep c (Lower.remark text c).2

abbrev Reaches : Context → Context → Prop := Relation.ReflTransGen ContextStep

/-- Whether at most one piece of markup was added, which was not there. -/
def GainsPiece (pieces pieces' : List String) : Prop :=
  pieces' = pieces ∨ ∃ content, content ∉ pieces ∧ pieces' = pieces ++ [content]

namespace Lower

variable {c : Context} {content : String}

theorem pushTemplate_of_mem (h : content ∈ c.templates) : (pushTemplate content c).2 = c := by
  cases hfind : c.templates.idxOf? content with
  | some k => simp [pushTemplate, hfind]
  | none => exact absurd h (by simpa using hfind)

theorem pushTemplate_of_not_mem (h : content ∉ c.templates) :
    (pushTemplate content c).2 = { c with templates := c.templates ++ [content] } := by
  have hfind : c.templates.idxOf? content = none := by simpa using h
  simp [pushTemplate, hfind]

theorem gainsPiece_pushTemplate (content : String) (c : Context) :
    GainsPiece c.templates (pushTemplate content c).2.templates := by
  by_cases hmem : content ∈ c.templates
  · exact Or.inl (by rw [pushTemplate_of_mem hmem])
  · exact Or.inr ⟨content, hmem, by rw [pushTemplate_of_not_mem hmem]⟩

theorem gainsPiece_registerTemplate (c : Context) :
    GainsPiece c.templates (registerTemplate c).2.templates := by
  by_cases hdrop : (c.discarding || c.frame.template.isEmpty) = true
  · rw [registerTemplate_run, if_pos hdrop]
    exact Or.inl rfl
  · rw [registerTemplate_run, if_neg hdrop]
    exact gainsPiece_pushTemplate c.frame.template c

theorem exitBlock_templates (c : Context) :
    (exitBlock c).2.templates = (registerTemplate c).2.templates := by
  have hsaved : (registerTemplate c).2.saved = c.saved := by
    rcases registerTemplate_cases c with ⟨hr, -⟩ | ⟨k, pieces, hr, -⟩ <;> rw [hr]
  rcases hcases : c.saved with _ | ⟨s, saved⟩ <;>
    simp [exitBlock, note, hsaved, hcases]

end Lower

section

variable {c c' : Context}

theorem ContextStep.gainsPiece (h : ContextStep c c') : GainsPiece c.templates c'.templates := by
  cases h with
  | pushTemplate content => exact Lower.gainsPiece_pushTemplate content c
  | registerTemplate => exact Lower.gainsPiece_registerTemplate c
  | exitBlock =>
    rw [Lower.exitBlock_templates]
    exact Lower.gainsPiece_registerTemplate c
  | modifyParent f =>
    rw [Lower.modifyParent_run]
    exact Or.inl rfl
  | popFrame =>
    rw [Lower.popFrame_run]
    exact Or.inl rfl
  | reference =>
    obtain ⟨_, _, _, h⟩ := Lower.reference_state c
    rw [h]
    exact Or.inl rfl
  | registerEffect expressions op cursor =>
    rcases Lower.registerEffect_cases expressions op cursor c with ⟨_, heq, -⟩ | ⟨_, _, heq, -⟩ <;>
      exact Or.inl (by rw [heq]; rfl)
  | markSeen path purpose =>
    by_cases hseen : (path, purpose) ∈ c.seen
    · rw [Lower.markSeen_of_mem hseen]
      exact Or.inl rfl
    · rw [Lower.markSeen_of_not_mem hseen]
      exact Or.inl rfl
  | noteRootTemplate template =>
    refine Or.inl ?_
    show (if c.frame.rootTemplate then _ else c : Context).templates = c.templates
    split <;> rfl
  | giveBack =>
    refine Or.inl ?_
    show (if !c.frame.plan.nonTemplate || c.frame.plan.insert then _ else c : Context).templates = _
    split <;> rfl
  | addComponent name =>
    refine Or.inl ?_
    show (if c.components.contains name then c else _ : Context).templates = c.templates
    split <;> rfl
  | addDirective name =>
    refine Or.inl ?_
    show (if c.directives.contains name then c else _ : Context).templates = c.templates
    split <;> rfl
  | _ => exact Or.inl rfl

theorem GainsPiece.kept {pieces pieces' : List String} (h : GainsPiece pieces pieces') :
    pieces <+: pieces' := by
  rcases h with rfl | ⟨content, -, rfl⟩
  · exact List.prefix_refl _
  · exact List.prefix_append _ _

theorem GainsPiece.nodup {pieces pieces' : List String} (h : GainsPiece pieces pieces')
    (hd : pieces.Nodup) : pieces'.Nodup := by
  rcases h with rfl | ⟨content, hnew, rfl⟩
  · exact hd
  · refine List.nodup_append.mpr ⟨hd, by simp, ?_⟩
    rintro a ha b hb rfl
    exact hnew (List.mem_singleton.mp hb ▸ ha)

theorem Reaches.kept (h : Reaches c c') : c.templates <+: c'.templates := by
  induction h with
  | refl => exact List.prefix_refl _
  | tail _ hstep ih => exact ih.trans hstep.gainsPiece.kept

theorem Reaches.nodup (h : Reaches c c') (hd : c.templates.Nodup) : c'.templates.Nodup := by
  induction h with
  | refl => exact hd
  | tail _ hstep ih => exact hstep.gainsPiece.nodup ih

theorem Reaches.denotes (h : Reaches c c') {k : Nat} {content : String}
    (hk : c.templates[k]? = some content) : c'.templates[k]? = some content := by
  obtain ⟨more, hmore⟩ := h.kept
  rw [← hmore, List.getElem?_append_left (List.getElem?_eq_some_iff.mp hk).1]
  exact hk

end

/-! ## The table of a whole template -/

/-- Whether the pieces of markup are distinct, none of them is empty, and all indices in a plan are those
of a piece. -/
structure RenderPlan.Indexed (p : RenderPlan) : Prop where
  distinct : p.templates.Nodup
  filled : ∀ content ∈ p.templates, content ≠ ""
  nodes : ∀ b, Part.block b ∈ p.block.parts → ∀ n ∈ b.plan.nodes, ∀ k, n.template = some k →
    k < p.templates.length
  roots : ∀ k ∈ p.rootTemplates, k < p.templates.length

theorem indexed_finish (o : LoweringOptions) (t : Template) : (t.lower o .none).finish.Indexed := by
  obtain ⟨once, -, hwalk⟩ := Lower.visits_lowerNode onceRule_isOpen t.depth (Context.ofTemplate o t)
  have htable : Table ((Context.ofTemplate o t).withOnce once) (t.lower o .none) := hwalk.table
  refine ⟨htable.distinct (by simp [Context.withOnce, Context.ofTemplate]), fun content hcontent => ?_,
    fun b hb n hn k hk => ?_, fun k hk => ?_⟩
  · exact (htable.filled content hcontent).resolve_left (by simp [Context.withOnce, Context.ofTemplate])
  · have hmem : Part.template k ∈ (t.lower o .none).finish.block.parts := by
      refine Block.parts_closed _ b hb ?_
      rw [Block.parts_eq]
      have htemplate := NodePlan.template_mem_parts b.plan n hn k hk
      simp [htemplate]
    exact allows_of_mem_finish onceRule_isOpen o t hmem (by simp)
  · exact (htable.roots k hk).resolve_left (by simp [Context.withOnce, Context.ofTemplate])

end JsxTemplate
