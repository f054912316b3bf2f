import Mathlib.Data.List.Forall2
import Mathlib.Logic.Relation
import JsxTemplate.Proofs.Lowering.Growth
import JsxTemplate.Proofs.Plan.Inner

/-!
# What actions do

What is done between two visits is put together from changes of a few kinds (`Deed`): a node is given a
number, its markup is changed, an operation is added, a mistake is reported, and so on. Which of them an
action makes is said here once (`Does`). What holds of all changes of these kinds then holds of the action
(`Does.related`).
-/

namespace JsxTemplate

variable {expressions : List Expression} {op : Operation}

/-- Whether something to do was left by a step of this library. -/
def Exit.isOwn : Exit → Bool
  | .added _ => false
  | _ => true

def Operation.isProperty : Operation → Bool
  | .setProperty _ _ _ | .setProperties _ _ _ => true
  | _ => false

/-- Whether an operation, if it catches an event at the document, is added for no expression that may
change. -/
def Operation.IsFixed (expressions : List Expression) (op : Operation) : Prop :=
  ∀ l, op = .setEvent l → l.delegate = true → ∀ x ∈ expressions, x.isConstant = true

theorem Operation.IsFixed.of_ne (h : ∀ l, op ≠ .setEvent l) :
    op.IsFixed expressions := fun l hl => absurd hl (h l)

/-- Whether an operation is one that a directive may add: it neither sets properties nor has blocks, and
inserts no nodes. -/
def Lower.IsDirectiveWork (op : Operation) : Prop := op.isProperty = false ∧ op.isBlock = false ∧
  (∀ e values blocks once generated, op ≠ .setNodes e values blocks once generated) ∧
  ∀ ids into, op ≠ .insertNodes ids into

/-- Whether an operation was added to one of the lists of the block. It runs again only if one of the
expressions may change. -/
inductive Registered (op : Operation) (cursor : Lower.Cursor) (c : Context) : Context → Prop where
  | once : Registered op cursor c (c.act op cursor.operation)
  | again {expressions : List Expression} (honce : c.frame.once = false)
      (hne : Lower.changing expressions ≠ []) (hfixed : op.IsFixed expressions) :
    Registered op cursor c (c.addEffect ⟨Lower.changing expressions, [op]⟩ cursor.effect)

/-- The kinds of changes that are made between two visits. -/
inductive Deed where
  | number | flags | markup | root | once
  /-- An operation without blocks is added at the end of the block. -/
  | work
  /-- An operation without blocks is added at a place that was noted. -/
  | inset
  /-- Nodes with blocks are set, or nodes are inserted. -/
  | nodes | insertion
  | report | names | piece
  /-- The node is made by an operation, which may be a condition. -/
  | operation | branch
  | children | slots | object | top
  /-- A node is marked for the step for texts, or for another step. -/
  | text | mark
  | wrap | enter | leave | discard | scope
  /-- The node around is changed. -/
  | attach | give
  | gather | fault
  deriving DecidableEq

/-- The changes of a kind. -/
inductive Deed.Changes (c : Context) : Deed → Context → Prop where
  | number (h : c.frame.plan.id = none) : Changes c .number c.number
  | flags (nonTemplate insert : Bool) :
    Changes c .flags { c with frame.plan.nonTemplate := nonTemplate, frame.plan.insert := insert }
  | markup (template : String) (childTemplates : List String) :
    Changes c .markup { c with frame := { c.frame with template, childTemplates } }
  | root (rootTemplate : Bool) : Changes c .root { c with frame.rootTemplate := rootTemplate }
  | once : Changes c .once { c with frame.once := true }
  | work {op : Operation} {c' : Context} (hop : Lower.IsDirectiveWork op) (h : Registered op .atEnd c c') :
    Changes c .work c'
  | inset {op : Operation} {cursor : Lower.Cursor} {c' : Context} (hcensus : op.census = [])
      (hparts : op.parts = []) (h : Registered op cursor c c') : Changes c .inset c'
  | nodes (element : Nat) (values : List Expression) (blocks : List NestedBlock) (once : Bool) :
    Changes c .nodes (c.act (.setNodes element values blocks once false) none)
  | insertion (ids : List Nat) (into : Insertion) :
    Changes c .insertion (c.act (.insertNodes ids into) none)
  | report (code : ErrorCode) (loc : Option Location) : Changes c .report (Lower.report code loc c).2
  | names (components directives : List String) (hasReference : Bool) :
    Changes c .names { c with components, directives, hasReference }
  | piece {pieces : List String} {template : Option Nat}
      (hpieces : pieces = c.templates ∨
        ∃ s, s ≠ "" ∧ s ∉ c.templates ∧ pieces = c.templates ++ [s])
      (htemplate : ∀ k, template = some k → k < pieces.length) :
    Changes c .piece { c with templates := pieces, frame.plan.template := template }
  | operation {op : Operation} (h : ∀ b into, op ≠ .branch b into) :
    Changes c .operation { c with frame.plan.operation := some op }
  | branch (op : Operation) : Changes c .branch { c with frame.plan.operation := some op }
  | children (nextId : Nat) (children : List NodePlan) (childTemplates : List String) :
    Changes c .children { c with
      nextId, frame.plan.children := children, frame.childTemplates := childTemplates }
  | slots (slots : List SlotGroup) : Changes c .slots { c with frame.slots := slots }
  | object (e : Expression) : Changes c .object { c with frame.slots := c.frame.slots ++ [.object e] }
  | top (rootTemplates returns : List Nat) :
    Changes c .top { c with rootTemplates, block.returns := returns }
  | text (path : Path) : Changes c .text { c with seen := (path, Lower.textPurpose) :: c.seen }
  | mark (m : Path × String) : Changes c .mark { c with seen := m :: c.seen }
  | wrap (path : Path) (tag : Tag) (children : List Node) :
    Changes c .wrap { c with frame.node := some (.wrapped path tag children) }
  | enter (loc : Location) (isLoop : Bool) : Changes c .enter (Lower.enterBlock loc isLoop c).2
  | leave : Changes c .leave (Lower.exitBlock c).2
  | discard : Changes c .discard { c with discarding := true }
  | scope (scope : List String) : Changes c .scope { c with scope }
  | attach (otherwise : Nat → Otherwise) :
    Changes c .attach (Lower.modifyParent (Frame.attachBranch otherwise) c).2
  | give (slots : List SlotGroup) : Changes c .give (Lower.modifyParent (fun p => { p with slots }) c).2
  | gather (path : Path) : Changes c .gather { c with log := .gathered path :: c.log }
  | fault (fault : Option Text.CutFault) : Changes c .fault { c with fault }

namespace Lower

/-- Whether an action makes only changes of the given kinds. -/
structure Does {α : Type} (deeds : List Deed) (x : Lower α) : Prop extends Uniform x where
  steps : ∀ c, Relation.ReflTransGen (fun c c' => ∃ d ∈ deeds, Deed.Changes c d c') c (x c).2

namespace Does

variable {α β : Type} {deeds deeds' : List Deed}

theorem mono {x : Lower α} (h : Does deeds' x) (hsub : deeds'.all deeds.contains = true) :
    Does deeds x := by
  refine ⟨h.toUniform, fun c => (h.steps c).lift id fun _ _ ⟨d, hd, hchange⟩ => ⟨d, ?_, hchange⟩⟩
  simpa using List.all_eq_true.mp hsub d hd

theorem pure (a : α) : Does deeds (Pure.pure a) := ⟨.pure a, fun _ => .refl⟩

theorem bind {x : Lower α} {f : α → Lower β} (hx : Does deeds' x)
    (hsub : deeds'.all deeds.contains = true) (hf : ∀ a, Does deeds (f a)) : Does deeds (x >>= f) :=
  ⟨hx.toUniform.bind fun a => (hf a).toUniform, fun c => ((hx.mono hsub).steps c).trans ((hf _).steps _)⟩

theorem read {f : Context → Lower β} (h : ∀ c, f c.modeless = f c) (hf : ∀ c, Does deeds (f c)) :
    Does deeds (get >>= f) :=
  ⟨.read (fun c => (hf c).toUniform) h, fun c => (hf c).steps c⟩

theorem ofRead {x : Lower α} (hx : ∀ c, (x c).2 = c) (h : ∀ c, (x c.modeless).1 = (x c).1) :
    Does deeds x :=
  ⟨.ofRead hx h, fun c => by rw [hx]⟩

theorem ofChange {x : Lower α} (hx : Uniform x) {d : Deed}
    (h : ∀ c, (x c).2 = c ∨ Deed.Changes c d (x c).2) : Does [d] x := by
  refine ⟨hx, fun c => ?_⟩
  rcases h c with h | h
  · rw [h]
  · exact .single ⟨d, List.mem_singleton_self d, h⟩

section

variable {x : Lower α} (h : Does deeds x)

include h

theorem related {R : Context → Context → Prop} (hrefl : ∀ c, R c c)
    (htrans : ∀ {c c' c''}, R c c' → R c' c'' → R c c'')
    (hchange : ∀ d ∈ deeds, ∀ {c c'}, Deed.Changes c d c' → R c c') (c : Context) : R c (x c).2 := by
  have hsteps := h.steps c
  generalize (x c).2 = c' at hsteps
  induction hsteps with
  | refl => exact hrefl c
  | tail _ hstep ih =>
    obtain ⟨d, hd, hd'⟩ := hstep
    exact htrans ih (hchange d hd hd')

theorem same {γ : Type} {f : Context → γ}
    (hchange : ∀ d ∈ deeds, ∀ {c c'}, Deed.Changes c d c' → f c' = f c) (c : Context) :
    f (x c).2 = f c :=
  h.related (R := fun c c' => f c' = f c) (fun _ => rfl) (fun h h' => h'.trans h) hchange c

end

end Does

/-! ## Mistakes -/

section

variable {α β : Type}

/-- Whether the mistakes that an action adds have a property. -/
def Reports (ok : List Diagnostic → Prop) (x : Lower α) : Prop :=
  ∀ c, ∃ new, ok new ∧ (x c).2.errors = c.errors ++ new

def Tacit (x : Lower α) : Prop := ∀ c, (x c).2.errors = c.errors

namespace Tacit

theorem pure (a : α) : Tacit (Pure.pure a) := fun _ => rfl

theorem bind {x : Lower α} {f : α → Lower β} (hx : Tacit x) (hf : ∀ a, Tacit (f a)) :
    Tacit (x >>= f) := fun c => (hf _ _).trans (hx c)

theorem reports {ok : List Diagnostic → Prop} {x : Lower α} (h : Tacit x) (hok : ok []) :
    Reports ok x := fun c => ⟨[], hok, by rw [h c, List.append_nil]⟩

end Tacit

namespace Reports

variable {ok ok' : List Diagnostic → Prop}

theorem mono {x : Lower α} (h : Reports ok x) (himp : ∀ new, ok new → ok' new) : Reports ok' x := by
  intro c
  obtain ⟨new, hnew, heq⟩ := h c
  exact ⟨new, himp new hnew, heq⟩

theorem bind {x : Lower α} {f : α → Lower β} (hx : Reports ok x) (hf : ∀ a, Reports ok' (f a)) :
    Reports (fun new => ∃ first second, ok first ∧ ok' second ∧ new = first ++ second) (x >>= f) := by
  intro c
  obtain ⟨first, hfirst, heq⟩ := hx c
  obtain ⟨second, hsecond, heq'⟩ := hf (x c).1 (x c).2
  refine ⟨_, ⟨first, second, hfirst, hsecond, rfl⟩, ?_⟩
  rw [run_bind, heq', heq, List.append_assoc]

theorem after {x : Lower α} {f : α → Lower β} (hx : Tacit x) (hf : ∀ a, Reports ok (f a)) :
    Reports ok (x >>= f) := by
  intro c
  obtain ⟨new, hnew, heq⟩ := hf (x c).1 (x c).2
  exact ⟨new, hnew, heq.trans (by rw [hx c])⟩

theorem before {x : Lower α} {f : α → Lower β} (hx : Reports ok x) (hf : ∀ a, Tacit (f a)) :
    Reports ok (x >>= f) := by
  intro c
  obtain ⟨new, hnew, heq⟩ := hx c
  exact ⟨new, hnew, (hf _ _).trans heq⟩

theorem read {f : Context → Lower β} (hf : ∀ c, Reports ok (f c)) : Reports ok (get >>= f) :=
  fun c => hf c c

end Reports

end

theorem Does.tacit {α : Type} {deeds : List Deed} {x : Lower α} (h : Does deeds x)
    (hd : deeds.contains .report = false) : Tacit x := by
  refine h.same (f := Context.errors) fun d hmem c c' hchange => ?_
  have hother : d ≠ .report := by
    rintro rfl
    rw [← List.contains_iff_mem, hd] at hmem
    cases hmem
  cases hchange with
  | work _ h => cases h <;> rfl
  | inset _ _ h => cases h <;> rfl
  | leave =>
    obtain ⟨_, _, _, _, _, _, _, _, _, h⟩ := exitBlock_state c
    rw [h]
  | attach otherwise | give slots => rw [modifyParent_run]
  | report => exact absurd rfl hother
  | _ => rfl

/-- Whether an action makes only changes of the given kinds, and the mistakes that it reports have a property. -/
structure Tells {α : Type} (deeds : List Deed) (ok : List Diagnostic → Prop) (x : Lower α) : Prop
    extends Does deeds x where
  reports : Reports ok x

def Deed.areQuiet (quiet deeds : List Deed) : Bool := !quiet.contains .report && quiet.all deeds.contains

namespace Tells

variable {α β : Type} {deeds deeds' q : List Deed} {ok ok' : List Diagnostic → Prop}

theorem silent {x : Lower α} (h : Does q x) (hq : Deed.areQuiet q deeds = true) (hok : ok []) :
    Tells deeds ok x := by
  rw [Deed.areQuiet, Bool.and_eq_true, Bool.not_eq_true'] at hq
  exact ⟨h.mono hq.2, (h.tacit hq.1).reports hok⟩

theorem pure (a : α) (hok : ok []) : Tells deeds ok (Pure.pure a) := ⟨.pure a, (Tacit.pure a).reports hok⟩

theorem report {code : ErrorCode} {loc : Option Location} (hok : ok [⟨code, loc⟩]) :
    Tells [.report] ok (Lower.report code loc) :=
  ⟨.ofChange (uniform_report code loc) fun _ => Or.inr (.report code loc), fun _ => ⟨_, hok, rfl⟩⟩

theorem mono {x : Lower α} (h : Tells deeds' ok x) (hsub : deeds'.all deeds.contains = true) :
    Tells deeds ok x :=
  ⟨h.toDoes.mono hsub, h.reports⟩

theorem imp {x : Lower α} (h : Tells deeds ok x) (himp : ∀ new, ok new → ok' new) : Tells deeds ok' x :=
  ⟨h.toDoes, h.reports.mono himp⟩

theorem read {f : Context → Lower β} (h : ∀ c, f c.modeless = f c) (hf : ∀ c, Tells deeds ok (f c)) :
    Tells deeds ok (get >>= f) :=
  ⟨.read h fun c => (hf c).toDoes, .read fun c => (hf c).reports⟩

theorem bind {x : Lower α} {f : α → Lower β} (hx : Tells deeds' ok x)
    (hsub : deeds'.all deeds.contains = true) (hf : ∀ a, Tells deeds ok' (f a)) :
    Tells deeds (fun new => ∃ first second, ok first ∧ ok' second ∧ new = first ++ second) (x >>= f) :=
  ⟨hx.toDoes.bind hsub fun a => (hf a).toDoes, hx.reports.bind fun a => (hf a).reports⟩

theorem after {x : Lower α} {f : α → Lower β} (hx : Does q x) (hq : Deed.areQuiet q deeds = true)
    (hf : ∀ a, Tells deeds ok (f a)) : Tells deeds ok (x >>= f) := by
  rw [Deed.areQuiet, Bool.and_eq_true, Bool.not_eq_true'] at hq
  exact ⟨hx.bind hq.2 fun a => (hf a).toDoes, .after (hx.tacit hq.1) fun a => (hf a).reports⟩

theorem before {x : Lower α} {f : α → Lower β} (hx : Tells deeds' ok x)
    (hsub : deeds'.all deeds.contains = true) (hf : ∀ a, Does q (f a))
    (hq : Deed.areQuiet q deeds = true) : Tells deeds ok (x >>= f) := by
  rw [Deed.areQuiet, Bool.and_eq_true, Bool.not_eq_true'] at hq
  exact ⟨hx.toDoes.bind hsub fun a => (hf a).mono hq.2, hx.reports.before fun a => (hf a).tacit hq.1⟩

theorem map {x : Lower α} (hx : Tells deeds' ok x) (hsub : deeds'.all deeds.contains = true) (g : α → β) :
    Tells deeds ok (x >>= fun a => Pure.pure (g a)) :=
  hx.before hsub (fun _ => @Does.pure _ [] _) rfl

end Tells

def AtMostOne (mistakes : List Diagnostic) : Prop := mistakes.length ≤ 1

theorem AtMostOne.nil : AtMostOne [] := Nat.zero_le 1

theorem tells_report (code : ErrorCode) (loc : Option Location) : Tells [.report] AtMostOne (report code loc) :=
  .report (Nat.le_refl 1)

/-! ## Basic actions -/

theorem does_node : Does [] node :=
  .ofRead (fun _ => rfl) fun _ => rfl

theorem does_inOnce : Does [] inOnce :=
  .ofRead (fun _ => rfl) fun _ => rfl

theorem does_parentNode : Does [] parentNode :=
  .ofRead (fun _ => rfl) fun _ => rfl

theorem does_parentFrame? : Does [] parentFrame? := .ofRead (fun _ => rfl) fun _ => rfl

theorem does_isSingleRoot : Does [] isSingleRoot := .ofRead (fun _ => rfl) fun _ => rfl

theorem does_isInComponent : Does [] isInComponent := .ofRead (fun _ => rfl) fun _ => rfl

theorem does_index : Does [] index :=
  .ofRead (fun _ => rfl) fun _ => rfl

theorem does_isSeen (path : Path) (purpose : String) : Does [] (isSeen path purpose) :=
  .ofRead (fun _ => rfl) fun _ => rfl

theorem does_isInScope (name : String) : Does [] (isInScope name) :=
  .ofRead (fun _ => rfl) fun _ => rfl

theorem does_reference : Does [.number] reference := by
  refine .ofChange uniform_reference fun c => ?_
  cases h : c.frame.plan.id with
  | none => rw [reference_of_none h]; exact Or.inr (.number h)
  | some id => rw [reference_of_some h]; exact Or.inl rfl

theorem does_flags {f : NodePlan → NodePlan}
    (h : ∀ p, f p = { p with nonTemplate := (f p).nonTemplate, insert := (f p).insert }) :
    Does [.flags] (modifyPlan f) := by
  refine .ofChange (uniform_modifyPlan f) fun c => Or.inr ?_
  rw [modifyPlan, modifyFrame, run_modify, h]
  exact .flags _ _

theorem does_markup {f : Frame → Frame}
    (h : ∀ p, f p = { p with template := (f p).template, childTemplates := (f p).childTemplates }) :
    Does [.markup] (modifyFrame f) := by
  refine .ofChange (uniform_modifyFrame f) fun c => Or.inr ?_
  rw [modifyFrame, run_modify, h]
  exact .markup _ _

theorem does_root (f : Bool → Bool) :
    Does [.root] (modifyFrame fun p => { p with rootTemplate := f p.rootTemplate }) :=
  .ofChange (uniform_modifyFrame _) fun _ => Or.inr (.root _)

theorem does_setChildTemplates (templates : List String) : Does [.markup] (setChildTemplates templates) :=
  does_markup fun _ => rfl

theorem does_report (code : ErrorCode) (loc : Option Location) : Does [.report] (report code loc) :=
  (tells_report code loc).toDoes

theorem does_addComponent (name : String) : Does [.names] (addComponent name) := by
  refine .ofChange (uniform_addComponent name) fun c => ?_
  simp only [addComponent, run_modify]
  split
  · exact Or.inl rfl
  · exact Or.inr (.names _ _ _)

theorem does_addDirective (name : String) : Does [.names] (addDirective name) := by
  refine .ofChange (uniform_addDirective name) fun c => ?_
  simp only [addDirective, run_modify]
  split
  · exact Or.inl rfl
  · exact Or.inr (.names _ _ _)

theorem registered_registerEffect (hfixed : op.IsFixed expressions) (cursor : Cursor) (c : Context) :
    Registered op cursor c (registerEffect expressions op cursor c).2 := by
  rcases silent_or_lively c expressions with hs | ⟨honce, hne⟩
  · rw [registerEffect_of_silent hs]
    exact .once
  · rw [registerEffect_of_lively honce hne]
    exact .again honce hne hfixed

theorem does_addOperation (h : IsDirectiveWork op) : Does [.work] (addOperation op) :=
  .ofChange (uniform_addOperation op) fun _ => Or.inr (.work h .once)

theorem does_addEffect (h : IsDirectiveWork op) (hfixed : op.IsFixed expressions) :
    Does [.work] (addEffect expressions op) :=
  .ofChange ((uniform_registerEffect _ _ _).bind fun _ => .pure _) fun c =>
    Or.inr (.work h (registered_registerEffect hfixed .atEnd c))

theorem does_registerEffect (hcensus : op.census = []) (hparts : op.parts = [])
    (hfixed : op.IsFixed expressions) (cursor : Cursor) :
    Does [.inset] (registerEffect expressions op cursor) :=
  .ofChange (uniform_registerEffect _ _ _) fun c =>
    Or.inr (.inset hcensus hparts (registered_registerEffect hfixed cursor c))

theorem does_mark {d : Deed} {path : Path} {purpose : String}
    (h : ∀ c : Context, Deed.Changes c d { c with seen := (path, purpose) :: c.seen }) :
    Does [d] (markSeen path purpose) := by
  refine .ofChange (uniform_markSeen path purpose) fun c => ?_
  by_cases hm : (path, purpose) ∈ c.seen
  · rw [markSeen_of_mem hm]
    exact Or.inl rfl
  · rw [markSeen_of_not_mem hm]
    exact Or.inr (h c)

theorem does_markSeen (path : Path) (purpose : String) : Does [.mark] (markSeen path purpose) :=
  does_mark fun _ => .mark _

theorem does_markAllSeen (vs : List Visited) : Does [.text] (markAllSeen vs) := by
  induction vs with
  | nil => exact .pure _
  | cons v vs ih => exact (does_mark fun _ => .text v.path).bind rfl fun _ => ih

theorem does_pushScope (names : List String) : Does [.scope] (pushScope names) :=
  .ofChange (uniform_pushScope names) fun _ => Or.inr (.scope _)

theorem does_popScope (count : Nat) : Does [.scope] (popScope count) :=
  .ofChange (uniform_popScope count) fun _ => Or.inr (.scope _)

theorem does_enterBlock (loc : Location) (isLoop : Bool) : Does [.enter] (enterBlock loc isLoop) :=
  .ofChange (uniform_enterBlock loc isLoop) fun _ => Or.inr (.enter loc isLoop)

theorem does_exitBlock : Does [.leave] exitBlock := .ofChange uniform_exitBlock fun _ => Or.inr .leave

theorem does_wrap (path : Path) (tag : Tag) (children : List Node) :
    Does [.wrap] (replaceNode (.wrapped path tag children)) :=
  .ofChange (uniform_replaceNode _) fun _ => Or.inr (.wrap path tag children)

theorem does_attach (otherwise : Nat → Otherwise) :
    Does [.attach] (modifyParent (Frame.attachBranch otherwise)) :=
  .ofChange (uniform_modifyParent _) fun _ => Or.inr (.attach otherwise)

theorem does_give (slots : List SlotGroup) : Does [.give] (modifyParent fun p => { p with slots }) :=
  .ofChange (uniform_modifyParent _) fun _ => Or.inr (.give slots)

theorem does_takeSlots : Does [.slots] takeSlots :=
  .ofChange uniform_takeSlots fun _ => Or.inr (.slots _)

theorem does_addSlots (slots : List SlotGroup) : Does [.slots] (addSlots slots) :=
  .ofChange (uniform_addSlots slots) fun _ => Or.inr (.slots _)

theorem does_addObject (e : Expression) : Does [.object] (addSlots [.object e]) :=
  .ofChange (uniform_addSlots _) fun _ => Or.inr (.object e)

theorem does_operation (h : ∀ b into, op ≠ .branch b into) :
    Does [.operation] (modifyPlan fun p => { p with operation := some op }) :=
  .ofChange (uniform_modifyPlan _) fun _ => Or.inr (.operation h)

theorem pieces_pushTemplate {content : String} (h : content ≠ "") (c : Context) :
    ∃ pieces, (pushTemplate content c).2 = { c with templates := pieces } ∧
      (pieces = c.templates ∨ ∃ s, s ≠ "" ∧ s ∉ c.templates ∧ pieces = c.templates ++ [s]) ∧
      (pushTemplate content c).1 < pieces.length := by
  cases hfind : c.templates.idxOf? content with
  | some k =>
    obtain ⟨hk, -⟩ := List.findIdx?_eq_some_iff_getElem.mp hfind
    exact ⟨c.templates, by simp [pushTemplate, hfind], Or.inl rfl, by simpa [pushTemplate, hfind] using hk⟩
  | none =>
    refine ⟨c.templates ++ [content], by simp [pushTemplate, hfind], Or.inr ⟨content, h, ?_, rfl⟩, ?_⟩
    · simpa using hfind
    · simp [pushTemplate, hfind]

theorem does_registerTemplate : Does [.piece] registerTemplate := by
  refine .ofChange uniform_registerTemplate fun c => ?_
  by_cases hdrop : (c.discarding || c.frame.template.isEmpty) = true
  · rw [registerTemplate_run, if_pos hdrop]
    exact Or.inl rfl
  · have hfilled : c.frame.template ≠ "" := by
      intro hempty
      simp [hempty] at hdrop
    obtain ⟨pieces, hstate, hpieces, hk⟩ := pieces_pushTemplate hfilled c
    rw [registerTemplate_run, if_neg hdrop, run_bind, hstate]
    exact Or.inr (.piece hpieces fun k hk' => Option.some.inj hk' ▸ hk)

end Lower

/-! ## Directives -/

/-- Whether the attribute of a directive leads to two mistakes at once: the text or markup inside an
element is missing, and there are children beside it, or a model on an element has an argument, and the
element cannot have the model. -/
def Directive.ReportsTwice (d : Directive) (tag : Tag) (children : List Node)
    (mistakes : List Diagnostic) : Prop :=
  (d.name = "html" ∧ d.exp = none ∧ children ≠ [] ∧
    mistakes = [⟨.htmlNoExpression, some d.loc⟩, ⟨.htmlWithChildren, some d.loc⟩]) ∨
  (d.name = "text" ∧ d.exp = none ∧ children ≠ [] ∧
    mistakes = [⟨.textNoExpression, some d.loc⟩, ⟨.textWithChildren, some d.loc⟩]) ∨
  (d.name = "model" ∧ tag.isComponent = false ∧ ∃ arg second, d.arg = some arg ∧
    second.code ∈ [.modelUnnecessaryValue, .modelOnFileInput, .modelOnInvalidElement] ∧
    mistakes = [⟨.modelArgOnElement, some arg.loc⟩, second])

/-- Whether an item of a tag can lead to some mistakes. -/
def TagItem.CanReport (tag : Tag) (children : List Node) (item : TagItem) (mistakes : List Diagnostic) :
    Prop :=
  mistakes.length ≤ 1 ∨ ∃ a, item = .attribute a ∧
    (Directive.ofAttribute a tag.isComponent).ReportsTwice tag children mistakes

namespace Lower

def quietDeeds : List Deed := [.number, .markup, .work, .names]

def attributeDeeds : List Deed := .report :: quietDeeds

theorem does_act {α : Type} {op : Nat → Operation} (hop : ∀ e, IsDirectiveWork (op e)) (a : α) :
    Does quietDeeds (do
      let element ← reference
      addOperation (op element)
      return a) :=
  does_reference.bind rfl fun e => (does_addOperation (hop e)).bind rfl fun _ => .pure _

theorem tells_listen (d : Directive) (tag : Tag) : Tells attributeDeeds AtMostOne (listen d tag) := by
  have hlisten : ∀ (listener : Nat → Listener) (key : Expression),
      (∀ e, (listener e).delegate = true → key.isStatic = true) → Does quietDeeds (do
      let element ← reference
      addEffect [key] (.setEvent (listener element))
      return (none : Option Property)) := by
    intro listener key hkey
    refine does_reference.bind rfl fun e =>
      (does_addEffect ⟨rfl, rfl, by simp, by simp⟩ ?_).bind rfl fun _ => .pure _
    rintro _ ⟨⟩ hdelegate x hx
    rw [List.mem_singleton.mp hx, Expression.isConstant, if_pos (hkey e hdelegate)]
  have hstatic : ∀ {a b d : Bool}, (a && b && d) = true → a = true := fun h =>
    (Bool.and_eq_true_iff.mp (Bool.and_eq_true_iff.mp h).1).1
  unfold listen
  split
  · exact .pure _ .nil
  · have hreport := tells_report .onNoExpression (some d.loc)
    cases d.exp.isNone && d.modifiers.isEmpty <;> cases tag.isComponent <;>
      simp only [if_true, Bool.false_eq_true, if_false]
    · exact .silent (hlisten (fun e => _) _ fun _ => hstatic) rfl .nil
    · exact .pure _ .nil
    · exact hreport.before rfl (fun _ => hlisten (fun e => _) _ fun _ => hstatic) rfl
    · exact hreport.map rfl _

theorem tells_visibility (d : Directive) : Tells attributeDeeds AtMostOne (visibility d) := by
  unfold visibility
  split
  · exact (tells_report _ _).map rfl _
  · exact .silent (does_act (fun _ => ⟨rfl, rfl, by simp, by simp⟩) _) rfl .nil

/-- Whether a directive can lead to some mistakes. -/
def DirectiveReports (d : Directive) (tag : Tag) (children : List Node) (mistakes : List Diagnostic) :
    Prop :=
  AtMostOne mistakes ∨ d.ReportsTwice tag children mistakes

theorem tells_contentValue (d : Directive) (children : List Node) (missing withChildren : ErrorCode) :
    Tells attributeDeeds (fun new => AtMostOne new ∨ d.exp = none ∧ children ≠ [] ∧
      new = [⟨missing, some d.loc⟩, ⟨withChildren, some d.loc⟩])
      (contentValue d children missing withChildren) := by
  have hrest : ∀ value : Expression, Tells attributeDeeds
      (fun new => new = [] ∨ children ≠ [] ∧ new = [⟨withChildren, some d.loc⟩]) (do
        if !children.isEmpty then
          report withChildren (some d.loc)
          setChildTemplates []
        return value) := by
    intro value
    split
    · next hne =>
      have hne : children ≠ [] := by simpa using hne
      refine (Tells.report (Or.inr ⟨hne, rfl⟩)).before (q := quietDeeds) rfl (fun _ => ?_) rfl
      exact (does_setChildTemplates _).bind rfl fun _ => .pure _
    · exact .pure _ (Or.inl rfl)
  unfold contentValue
  cases hexp : d.exp with
  | some e =>
    refine (hrest e).imp ?_
    rintro new (rfl | ⟨-, rfl⟩)
    · exact Or.inl .nil
    · exact Or.inl (Nat.le_refl 1)
  | none =>
    have hreport : Tells [.report] (· = [⟨missing, some d.loc⟩]) (report missing (some d.loc)) := .report rfl
    refine (hreport.bind rfl fun _ => hrest _).imp ?_
    rintro _ ⟨_, second, rfl, rfl | ⟨hne, rfl⟩, rfl⟩
    · exact Or.inl (Nat.le_refl 1)
    · exact Or.inr ⟨rfl, hne, rfl⟩

theorem tells_innerHtml {d : Directive} (hname : d.name = "html") (tag : Tag) (children : List Node) :
    Tells attributeDeeds (DirectiveReports d tag children) (innerHtml d children) := by
  have hset : ∀ value : Expression, Does quietDeeds (do
      let element ← reference
      addEffect [value] (.setHtml element value)
      return (none : Option Property)) := fun value => does_reference.bind rfl fun _ =>
    (does_addEffect ⟨rfl, rfl, by simp, by simp⟩ (.of_ne (by simp))).bind rfl fun _ => .pure _
  exact ((tells_contentValue d children _ _).before rfl hset rfl).imp fun new =>
    Or.imp_right fun h => Or.inl ⟨hname, h⟩

theorem tells_innerText {d : Directive} (hname : d.name = "text") (tag : Tag) (children : List Node) :
    Tells attributeDeeds (DirectiveReports d tag children) (innerText d tag children) := by
  refine ((tells_contentValue d children _ _).before (q := quietDeeds) rfl (fun value => ?_) rfl).imp
    fun new => Or.imp_right fun h => Or.inr (Or.inl ⟨hname, h⟩)
  split
  · exact .pure _
  · split
    · exact (does_setChildTemplates _).bind rfl fun _ => .pure _
    · refine (does_setChildTemplates _).bind rfl fun _ => does_reference.bind rfl fun e => ?_
      have heffect : Does quietDeeds (do
          addEffect [value] (.setText e [value] true)
          return (none : Option Property)) :=
        (does_addEffect ⟨rfl, rfl, by simp, by simp⟩ (.of_ne (by simp))).bind rfl fun _ => .pure _
      split
      · exact (does_addOperation ⟨rfl, rfl, by simp, by simp⟩).bind rfl fun _ => heffect
      · exact heffect

/-- Whether some mistakes are about an element that cannot have a model. -/
def NoModelHere (mistakes : List Diagnostic) : Prop :=
  mistakes = [] ∨ ∃ e : Diagnostic, mistakes = [e] ∧
    e.code ∈ [.modelUnnecessaryValue, .modelOnFileInput, .modelOnInvalidElement]

theorem NoModelHere.atMostOne {mistakes : List Diagnostic} (h : NoModelHere mistakes) :
    AtMostOne mistakes := by
  rcases h with rfl | ⟨e, rfl, -⟩
  · exact .nil
  · exact Nat.le_refl 1

theorem tells_modelType? (tag : Tag) : Tells attributeDeeds NoModelHere (modelType? tag) := by
  have hpure : ∀ type : Option ModelType, Tells attributeDeeds NoModelHere (pure type) := fun type =>
    .pure type (Or.inl rfl)
  have hvalue : Tells attributeDeeds NoModelHere (checkValue tag) := by
    unfold checkValue
    split
    · exact (Tells.report (Or.inr ⟨_, rfl, by simp⟩)).mono rfl
    · exact .pure _ (Or.inl rfl)
  have hcheck : Tells attributeDeeds NoModelHere (do checkValue tag; return some ModelType.text) :=
    hvalue.map rfl _
  have hinput : Tells attributeDeeds NoModelHere (inputModelType? tag) := by
    unfold inputModelType?
    split
    · split
      · exact hpure _
      · exact hcheck
    · split
      · split
        · exact hpure _
        · split
          · exact hpure _
          · exact hpure _
          · exact (Tells.report (Or.inr ⟨_, rfl, by simp⟩)).map rfl _
          · exact hcheck
      · exact hcheck
  refine .read (fun _ => rfl) fun c => ?_
  split
  · exact hinput
  · split
    · exact hpure _
    · split
      · exact hcheck
      · exact (Tells.report (Or.inr ⟨_, rfl, by simp⟩)).map rfl _

theorem tells_model {d : Directive} (hname : d.name = "model") (tag : Tag) (children : List Node) :
    Tells attributeDeeds (DirectiveReports d tag children) (model d tag) := by
  have hreportThen : ∀ code loc, Tells attributeDeeds (DirectiveReports d tag children) (do
      report code loc
      return (none : Option Property)) := fun code loc =>
    ((tells_report code loc).map rfl _).imp fun _ => Or.inl
  have hact : ∀ modelType : ModelType, Does quietDeeds (do
      let element ← reference
      addOperation (.directive ⟨element, d, "model", true, some modelType⟩)
      return (none : Option Property)) := fun _ => does_act (fun _ => ⟨rfl, rfl, by simp, by simp⟩) _
  unfold model
  split
  · exact hreportThen _ _
  · dsimp only
    split
    · exact hreportThen _ _
    · refine .after (does_isInScope _) rfl fun inScope => ?_
      split
      · exact hreportThen _ _
      · split
        · exact .pure _ (Or.inl .nil)
        · next hcomponent =>
          cases harg : d.arg with
          | none =>
            refine ((tells_modelType? tag).before (q := quietDeeds) rfl (fun type => ?_) rfl).imp fun _ h =>
              Or.inl h.atMostOne
            split
            · exact .pure _
            · exact hact _
          | some arg =>
            -- The argument is reported before the kind of input is looked for.
            have hreport : Tells [.report] (· = [⟨.modelArgOnElement, some arg.loc⟩])
                (report .modelArgOnElement (some arg.loc)) := .report rfl
            refine (hreport.bind rfl fun _ =>
              (tells_modelType? tag).before (q := quietDeeds) rfl (fun type => ?_) rfl).imp ?_
            · split
              · exact .pure _
              · exact hact _
            · rintro _ ⟨_, second, rfl, hsecond, rfl⟩
              rcases hsecond with rfl | ⟨e, rfl, he⟩
              · exact Or.inl (Nat.le_refl 1)
              · exact Or.inr (Or.inr (Or.inr ⟨hname, eq_false_of_ne_true hcomponent, arg, e, harg, he, rfl⟩))

theorem mem_directiveSteps {name : String} {step : DirectiveStep}
    (h : directiveStep? .none name = some step) : (name, step) ∈ directiveSteps := by
  obtain ⟨⟨key, step⟩, hfind, rfl⟩ := Option.map_eq_some_iff.mp h
  have hkey := List.find?_some hfind
  obtain rfl : key = name := beq_iff_eq.mp hkey
  exact List.mem_of_find?_eq_some hfind

theorem tells_propertyOf (d : Directive) (tag : Tag) (children : List Node) :
    Tells attributeDeeds (DirectiveReports d tag children) (propertyOf .none d tag children) := by
  unfold propertyOf
  split
  · next step hstep =>
    have hmem := mem_directiveSteps hstep
    simp only [directiveSteps, List.mem_cons, Prod.mk.injEq, List.not_mem_nil, or_false] at hmem
    rcases hmem with ⟨hname, rfl⟩ | ⟨hname, rfl⟩ | ⟨hname, rfl⟩ | ⟨hname, rfl⟩ | ⟨hname, rfl⟩ | ⟨hname, rfl⟩
    · exact .pure _ (Or.inl .nil)
    · exact (tells_listen d tag).imp fun _ => Or.inl
    · exact tells_model hname tag children
    · exact (tells_visibility d).imp fun _ => Or.inl
    · exact tells_innerHtml hname tag children
    · exact tells_innerText hname tag children
  · split
    · refine .silent (q := quietDeeds) ?_ rfl (Or.inl .nil)
      exact (does_addDirective _).bind rfl fun _ => does_act (fun _ => ⟨rfl, rfl, by simp, by simp⟩) _
    · exact .pure _ (Or.inl .nil)

theorem tells_gatherObject (d : Directive) (tag : Tag) (draft : PropertyDraft) (cursor : Cursor) :
    Tells [.number, .inset, .report] AtMostOne (gatherObject d tag draft cursor) := by
  unfold gatherObject
  split
  · exact (tells_report _ _).map rfl _
  · split
    · exact .pure _ .nil
    · refine .silent (q := [.number, .inset]) ?_ rfl .nil
      exact does_reference.bind rfl fun e =>
        (does_registerEffect rfl rfl (.of_ne (by simp)) _).bind rfl fun _ => .pure _

def propertyDeeds : List Deed := .inset :: attributeDeeds

theorem tells_gatherItem (tag : Tag) (children : List Node) (item : TagItem) (draft : PropertyDraft)
    (cursor : Cursor) :
    Tells propertyDeeds (item.CanReport tag children) (gatherItem .none tag children item draft cursor) := by
  have hnone : item.CanReport tag children [] := Or.inl (Nat.zero_le 1)
  unfold gatherItem
  split
  · exact .pure _ hnone
  · next a =>
    dsimp only
    split
    · exact ((tells_gatherObject _ _ _ _).mono rfl).imp fun _ => Or.inl
    · split
      · exact .pure _ hnone
      · refine ((tells_propertyOf _ tag children).before (q := []) rfl (fun p => ?_) rfl).imp fun new =>
          Or.imp_right fun h => ⟨a, rfl, h⟩
        cases p <;> exact .pure _

theorem tells_gatherItems (tag : Tag) (children : List Node) (items : List TagItem)
    (draft : PropertyDraft) (cursor : Cursor) :
    Tells propertyDeeds (fun new => ∃ groups, List.Forall₂ (TagItem.CanReport tag children) items groups ∧
      new = groups.flatten) (gatherItems .none tag children items draft cursor) := by
  induction items generalizing draft cursor with
  | nil => exact .pure _ ⟨[], .nil, rfl⟩
  | cons item items ih =>
    refine ((tells_gatherItem tag children item draft cursor).bind rfl fun r => ih r.1 r.2).imp ?_
    rintro _ ⟨first, _, hfirst, ⟨groups, hgroups, rfl⟩, rfl⟩
    exact ⟨first :: groups, .cons hfirst hgroups, rfl⟩

theorem does_propertiesOf (tag : Tag) (children : List Node) (cursor : Cursor) :
    Does propertyDeeds (propertiesOf .none tag children cursor) :=
  (tells_gatherItems _ _ _ _ _).toDoes.bind rfl fun _ => .pure _

/-! ## Elements, components and references -/

theorem does_writeProperties (tag : Tag) (properties : List Property) (dynamicKeys : List String)
    (cursor : Cursor) : Does [.number, .inset] (writeProperties tag properties dynamicKeys cursor) := by
  induction properties generalizing dynamicKeys cursor with
  | nil => exact .pure _
  | cons p ps ih =>
    rw [writeProperties]
    split
    · exact (ih _ _).bind rfl fun _ => .pure _
    · exact does_reference.bind rfl fun e => (does_registerEffect rfl rfl (.of_ne (by simp)) _).bind rfl fun _ => ih _ _

theorem does_attributesOf (tag : Tag) (properties : Properties) (cursor : Cursor) :
    Does [.number, .inset] (attributesOf tag properties cursor) := by
  cases properties with
  | fixed properties => exact does_writeProperties _ _ _ _
  | grouped groups expressions =>
    exact does_reference.bind rfl fun e => (does_registerEffect rfl rfl (.of_ne (by simp)) _).bind rfl fun _ => .pure _

theorem does_isMisplaced (tag : Tag) : Does [] (isMisplaced tag) := by
  refine does_parentNode.bind rfl fun parent => ?_
  split <;> exact .pure _

theorem elementMarkup_ne_empty (tag : Tag) (attributes inner : String) :
    elementMarkup tag attributes inner ≠ "" := by
  intro h
  have hlist := congrArg String.toList h
  simp [elementMarkup] at hlist

theorem does_pushPiece {template : String} (h : template ≠ "") :
    Does [.piece, .flags] (do
      let index ← pushPiece template
      modifyPlan fun p => { p with template := index, insert := true, nonTemplate := true }) := by
  have huniform : Uniform (pushPiece template) := by
    refine .read (fun c => ?_) fun _ => rfl
    split
    · exact .pure _
    · exact (uniform_pushTemplate _).bind fun _ => .pure _
  refine ⟨huniform.bind fun _ => uniform_modifyPlan _, fun c => ?_⟩
  -- the piece is given to the node in the state in which it was found
  have hplace : ∀ {pieces : List String} {index : Option Nat},
      (pieces = c.templates ∨ ∃ s, s ≠ "" ∧ s ∉ c.templates ∧ pieces = c.templates ++ [s]) →
      (∀ k, index = some k → k < pieces.length) →
      Relation.ReflTransGen (fun c c' => ∃ d ∈ [Deed.piece, .flags], Deed.Changes c d c') c
        (modifyPlan (fun p => { p with template := index, insert := true, nonTemplate := true })
          { c with templates := pieces }).2 := fun hpieces hindex =>
    .tail (.single ⟨.piece, by decide, .piece hpieces hindex⟩) ⟨.flags, by decide, .flags true true⟩
  rw [run_bind, pushPiece, run_bind, run_get]
  split
  · exact hplace (Or.inl rfl) nofun
  · obtain ⟨pieces, hstate, hpieces, hk⟩ := pieces_pushTemplate h c
    rw [run_bind, hstate]
    exact hplace hpieces fun k hk' => Option.some.inj hk' ▸ hk

theorem does_takeChildTemplates : Does [.markup] takeChildTemplates :=
  .read (fun _ => rfl) fun _ => (does_setChildTemplates _).bind rfl fun _ => .pure _

theorem does_placeElement (tag : Tag) {template : String} (h : template ≠ "") :
    Does [.number, .markup, .piece, .flags] (placeElement tag template) := by
  refine (does_isMisplaced tag).bind rfl fun misplaced => ?_
  split
  · exact does_reference.bind rfl fun _ => (does_pushPiece h).mono rfl
  · exact (does_markup fun _ => rfl).mono rfl

theorem does_lowerElement (tag : Tag) (properties : Properties) (singleRoot : Bool) (cursor : Cursor) :
    Does [.number, .inset, .markup, .root, .piece, .flags] (lowerElement tag properties singleRoot cursor) :=
  (does_attributesOf _ _ _).bind rfl fun _ => does_takeChildTemplates.bind rfl fun _ =>
    (does_root (· || singleRoot)).bind rfl fun _ =>
      (does_placeElement tag (elementMarkup_ne_empty _ _ _)).mono rfl

theorem does_noteComponent (tag : Tag) : Does [.names] (noteComponent tag) := by
  unfold noteComponent
  split
  · exact does_addComponent _
  · exact .pure _

theorem does_lowerComponent (tag : Tag) (properties : Properties) (singleRoot : Bool) :
    Does [.names, .flags, .number, .slots, .operation] (lowerComponent tag properties singleRoot) :=
  (does_noteComponent tag).bind rfl fun _ => (does_flags fun _ => rfl).bind rfl fun _ =>
    does_reference.bind rfl fun _ => does_takeSlots.bind rfl fun _ =>
      .read (fun _ => rfl) fun _ => does_inOnce.bind rfl fun _ => (does_operation (by simp)).mono rfl

def elementDeeds : List Deed := [.gather, .piece, .flags, .slots, .operation, .root] ++ propertyDeeds

theorem does_exitElement (cursor : Cursor) : Does elementDeeds (exitElement .none cursor) := by
  refine does_node.bind rfl fun v => ?_
  split
  · split
    · exact .pure _
    · refine .bind (.ofChange (uniform_note _) fun _ => Or.inr (.gather _)) rfl fun _ =>
        (does_propertiesOf _ _ _).bind rfl fun r => ?_
      refine does_isSingleRoot.bind rfl fun singleRoot => ?_
      split
      · exact (does_lowerComponent _ _ _).mono rfl
      · exact (does_lowerElement _ _ _ _).mono rfl
  · exact .pure _

theorem does_exitReference (value : Expression) : Does [.number, .work] (exitReference value) := by
  have hset : ∀ id effect, Does [.number, .work] (do
      let inLoop := (← get).loopDepth != 0
      addEffect [value] (.setReference id value inLoop effect)) := fun id effect =>
    .read (fun _ => rfl) fun c => (does_addEffect ⟨rfl, rfl, by simp, by simp⟩ (.of_ne (by simp))).mono rfl
  unfold exitReference
  refine does_reference.bind rfl fun id => ?_
  cases value.isConstant with
  | true => exact hset id false
  | false => exact (does_addOperation ⟨rfl, rfl, by simp, by simp⟩).bind rfl fun _ => hset id true

/-! ## Children -/

theorem does_addToBlock : Does [.number, .piece, .top] addToBlock := by
  have hnote : ∀ template, Does [.top] (noteRootTemplate template) := by
    intro template
    refine .ofChange (uniform_noteRootTemplate template) fun c => ?_
    simp only [noteRootTemplate, run_modify]
    split
    · exact Or.inr (.top _ _)
    · exact Or.inl rfl
  have hgive : Does [.top] giveBack := by
    refine .ofChange uniform_giveBack fun c => ?_
    simp only [giveBack, run_modify]
    split
    · exact Or.inr (.top _ _)
    · exact Or.inl rfl
  exact does_reference.bind rfl fun _ => does_registerTemplate.bind rfl fun template =>
    (hnote template).bind rfl fun _ => hgive.mono rfl

theorem does_insertRun (run : List Nat) (anchor : Option Anchor) :
    Does [.number, .children, .insertion] (insertRun run anchor) := by
  have hplace : ∀ into, Does [.children] (modifyPlan fun p =>
      { p with children := NodePlan.insertRun run into p.children }) := fun into =>
    .ofChange (uniform_modifyPlan _) fun c => Or.inr (.children c.nextId _ c.frame.childTemplates)
  refine does_reference.bind rfl fun parent => .read (fun _ => rfl) fun c => (hplace _).bind rfl fun _ => ?_
  dsimp only
  split
  · exact (Does.ofChange (d := .insertion) (uniform_addOperation _) fun _ => Or.inr (.insertion _ _)).mono rfl
  · exact .pure _

theorem does_insertRuns (runs : List (List Nat × RunPlace)) :
    Does [.number, .children, .insertion] (insertRuns runs) := by
  induction runs with
  | nil => exact .pure _
  | cons r runs ih =>
    obtain ⟨run, place⟩ := r
    cases place with
    | front => exact (does_insertRun _ _).bind rfl fun _ => ih
    | middle =>
      have hput : Does [.children] (putPlaceholder (run.headD 0)) :=
        .ofChange (uniform_putPlaceholder _) fun _ => Or.inr (.children _ _ _)
      exact hput.bind rfl fun a => (does_insertRun _ _).bind rfl fun _ => ih
    | back => exact (does_insertRun _ _).bind rfl fun _ => ih

/-! ## Texts -/

theorem does_groupValues (nodes : List Visited) : Does [.text] (groupValues nodes) :=
  (does_markAllSeen nodes).bind rfl fun _ => .pure _

theorem does_prepareText : Does [.text, .flags, .markup, .number, .work] prepareText := by
  have hcontainer : ∀ children, Does [.text, .markup, .number, .work] (prepareContainer children) := by
    intro children
    refine (does_groupValues children).bind rfl fun values => ?_
    split
    · exact (does_setChildTemplates _).bind rfl fun _ => does_reference.bind rfl fun _ => .pure _
    · split
      · exact (does_setChildTemplates _).bind rfl fun _ => .pure _
      · exact (does_setChildTemplates _).bind rfl fun _ => does_reference.bind rfl fun _ =>
          (does_addOperation ⟨rfl, rfl, by simp, by simp⟩).bind rfl fun _ =>
            (does_addEffect ⟨rfl, rfl, by simp, by simp⟩ (.of_ne (by simp))).bind rfl fun _ => .pure _
  refine does_node.bind rfl fun v => ?_
  split
  · exact .pure _
  · refine (does_isSeen _ _).bind rfl fun seen => ?_
    split
    · exact (does_flags fun _ => rfl).bind rfl fun _ => .pure _
    · split
      · exact (does_markup fun _ => rfl).bind rfl fun _ => .pure _
      · refine does_parentNode.bind rfl fun parent => ?_
        split
        · exact .pure _
        · refine does_index.bind rfl fun index => (does_groupValues _).bind rfl fun values => ?_
          split
          · exact (does_flags fun _ => rfl).bind rfl fun _ => .pure _
          · exact does_reference.bind rfl fun _ => (does_flags fun _ => rfl).bind rfl fun _ => .pure _
      · exact .pure _
      · unfold prepareChildren
        dsimp only
        split
        · split
          · exact (hcontainer _).mono rfl
          · exact (does_markAllSeen _).bind rfl fun _ => .pure _
        · exact .pure _

theorem does_finishText (work : TextWork) (blocks : List NestedBlock) :
    Does [.nodes, .operation] (finishText work blocks) := by
  cases work with
  | done => exact .pure _
  | container element values roots =>
    exact does_inOnce.bind rfl fun _ =>
      (Does.ofChange (d := .nodes) (uniform_addOperation _) fun _ => Or.inr (.nodes _ _ _ _)).mono rfl
  | expression id values roots => exact does_inOnce.bind rfl fun _ => (does_operation (by simp)).mono rfl

/-! ## Steps -/

theorem does_onceStep : Does [.once] onceStep := by
  refine does_node.bind rfl fun v => ?_
  split
  · split
    · exact .bind (.ofChange uniform_setOnce fun _ => Or.inr .once) rfl fun _ => .pure _
    · exact .pure _
  · exact .pure _

theorem tells_branchCondition (d : Directive) :
    Tells [.report] (fun new => new = [] ∨ d.name ≠ "else" ∧ d.exp = none ∧
      new = [⟨.ifNoExpression, some d.loc⟩]) (branchCondition d) := by
  unfold branchCondition
  split
  · exact .pure _ (Or.inl rfl)
  · next hname =>
    have hname : d.name ≠ "else" := by simpa using hname
    have hcondition : Tells [.report] (fun new => new = [] ∨ d.name ≠ "else" ∧ d.exp = none ∧
        new = [⟨.ifNoExpression, some d.loc⟩]) (conditionOf d) := by
      unfold conditionOf
      split
      · exact .pure _ (Or.inl rfl)
      · next hexp => exact (Tells.report (Or.inr ⟨hname, hexp, rfl⟩)).map rfl _
    exact hcondition.map rfl _

theorem does_branchCondition (d : Directive) : Does [.report] (branchCondition d) :=
  (tells_branchCondition d).toDoes

theorem does_followsCondition : Does [] followsCondition := by
  refine does_index.bind rfl fun index => does_parentFrame?.bind rfl fun parent => ?_
  dsimp only
  split
  · exact .pure _
  · split <;> exact .pure _

theorem does_enterBranch (path : Path) (tag : Tag) (children : List Node) :
    Does [.wrap, .enter, .number] (enterBranch path tag children) := by
  have hrest : Does [.wrap, .enter, .number] (do
      enterBlock tag.loc false
      let _ ← reference
      return ()) :=
    (does_enterBlock _ _).bind rfl fun _ => does_reference.bind rfl fun _ => .pure _
  unfold enterBranch
  split
  · exact (does_wrap _ _ _).bind rfl fun _ => hrest
  · exact hrest

theorem does_enterFirstBranch (path : Path) (tag : Tag) (children : List Node)
    (condition : Expression) :
    Does [.flags, .wrap, .enter, .number] (enterFirstBranch path tag children condition) :=
  (does_flags fun _ => rfl).bind rfl fun _ => does_reference.bind rfl fun _ =>
    (does_flags fun _ => rfl).bind rfl fun _ => (does_enterBranch _ _ _).bind rfl fun _ => .pure _

theorem tells_loopHead (d : Directive) : Tells [.report, .fault] AtMostOne (loopHead d) := by
  unfold loopHead
  split
  · exact (tells_report _ _).map rfl _
  · split
    · exact .pure _ .nil
    · exact (tells_report _ _).map rfl _
    · refine .silent (q := [.fault]) ?_ rfl .nil
      exact .bind (.ofChange (uniform_fail _) fun _ => Or.inr (.fault _)) rfl fun _ => .pure _

theorem does_loopHead (d : Directive) : Does [.report, .fault] (loopHead d) := (tells_loopHead d).toDoes

theorem does_enterLoop (path : Path) (tag : Tag) (children : List Node) (head : LoopHead) :
    Does [.flags, .wrap, .enter, .number, .scope] (enterLoop path tag children head) :=
  (does_wrap _ _ _).bind rfl fun _ => (does_flags fun _ => rfl).bind rfl fun _ =>
    does_reference.bind rfl fun _ => (does_enterBlock _ _).bind rfl fun _ => does_reference.bind rfl fun _ =>
      (does_pushScope _).bind rfl fun _ => .pure _

theorem does_referenceStep : Does [.names] referenceStep := by
  refine does_node.bind rfl fun v => ?_
  split
  · split
    · exact .pure _
    · exact .bind (.ofChange uniform_noteReference fun _ => Or.inr (.names _ _ _)) rfl fun _ => .pure _
  · exact .pure _

theorem does_elementStep : Does [] elementStep :=
  .ofRead (fun _ => rfl) fun _ => rfl

theorem does_enterComponentSlots (tag : Tag) (children : List Node) (d : Option Directive) :
    Does [.scope, .enter, .discard] (enterComponentSlots tag children d) := by
  refine (does_pushScope _).bind rfl fun scope => (does_enterBlock _ _).bind rfl fun _ => ?_
  split
  · exact .bind (.ofChange uniform_discardTemplates fun _ => Or.inr .discard) rfl fun _ => .pure _
  · exact .pure _

theorem tells_slotHead (loop : Option Directive) :
    Tells [.report, .fault] AtMostOne (loop.elim (pure none) loopHead) := by
  cases loop with
  | none => exact .pure _ .nil
  | some loop => exact tells_loopHead loop

theorem tells_enterTemplateSlot (tag : Tag) (d : Directive) :
    Tells [.flags, .report, .fault, .scope, .enter] AtMostOne (enterTemplateSlot tag d) :=
  .after (does_flags fun _ => rfl) rfl fun _ => (tells_slotHead _).before (q := [.scope, .enter]) rfl
    (fun _ => (does_pushScope _).bind rfl fun _ => (does_enterBlock _ _).bind rfl fun _ => .pure _) rfl

/-- Whether a property of steps holds of doing nothing, and is kept if something small is done before. -/
structure Stepwise (small : List Deed) (P : Lower (List Exit) → Prop) : Prop where
  nothing : P (Pure.pure [])
  bind : ∀ {α : Type} {deeds : List Deed} {x : Lower α} {f : α → Lower (List Exit)}, Does deeds x →
    deeds.all small.contains = true → (∀ a, P (f a)) → P (x >>= f)

namespace Stepwise

variable {P : Lower (List Exit) → Prop}

theorem mono {small small' : List Deed} (h : Stepwise small P) (hsub : small'.all small.contains = true) :
    Stepwise small' P :=
  ⟨h.nothing, fun hx hd => h.bind (hx.mono hd) hsub⟩

theorem conditionStep (h : Stepwise [.mark, .flags, .report] P)
    (hfirst : ∀ path tag children condition, P (enterFirstBranch path tag children condition))
    (hnext : ∀ path tag children condition, P (do
      enterBranch path tag children
      return [.otherwise condition])) : P Lower.conditionStep := by
  refine h.bind does_node rfl fun v => ?_
  split
  · split
    · exact h.nothing
    · split
      · exact h.nothing
      · refine h.bind (does_markSeen _ _) rfl fun news => ?_
        split
        · exact h.nothing
        · refine h.bind (does_branchCondition _) rfl fun condition => ?_
          split
          · exact hfirst _ _ _ _
          · refine h.bind (does_flags fun _ => rfl) rfl fun _ => h.bind does_followsCondition rfl fun follows => ?_
            split
            · exact h.bind (does_report _ _) rfl fun _ => h.bind (does_flags fun _ => rfl) rfl fun _ => h.nothing
            · exact hnext _ _ _ _
  · exact h.nothing

theorem loopStep (h : Stepwise [.mark, .report, .fault] P)
    (henter : ∀ path tag children head, P (enterLoop path tag children head)) :
    P Lower.loopStep := by
  refine h.bind does_node rfl fun v => ?_
  split
  · split
    · exact h.nothing
    · split
      · exact h.nothing
      · refine h.bind (does_markSeen _ _) rfl fun news => ?_
        split
        · exact h.nothing
        · refine h.bind (does_loopHead _) rfl fun head => ?_
          split
          · exact h.nothing
          · exact henter _ _ _ _
  · exact h.nothing

theorem slotStep (h : Stepwise [.object, .report] P)
    (hcomponent : ∀ tag children d, P (enterComponentSlots tag children d))
    (htemplate : ∀ tag d, P (enterTemplateSlot tag d)) : P Lower.slotStep := by
  refine h.bind does_node rfl fun v => ?_
  split
  · next path tag children =>
    have henter : P (do
        if children.isEmpty then return []
        enterComponentSlots tag children (tag.directive? "slot") : Lower (List Exit)) := by
      split
      · exact h.nothing
      · exact hcomponent _ _ _
    dsimp only
    split
    · cases (tag.directive? "slots").bind Directive.exp with
      | some e => exact h.bind (does_addObject e) rfl fun _ => henter
      | none => exact henter
    · split
      · exact h.nothing
      · refine h.bind does_isInComponent rfl fun inside => ?_
        split
        · exact htemplate _ _
        · exact h.bind (does_report _ _) rfl fun _ => h.nothing
  · exact h.nothing

end Stepwise

theorem Does.stepwise {deeds : List Deed} : Stepwise deeds (Does deeds) :=
  ⟨.pure _, .bind⟩

theorem does_conditionStep :
    Does [.mark, .flags, .report, .wrap, .enter, .number] conditionStep :=
  (Does.stepwise.mono rfl).conditionStep (fun _ _ _ _ => (does_enterFirstBranch _ _ _ _).mono rfl)
    fun _ _ _ _ => (does_enterBranch _ _ _).bind rfl fun _ => .pure _

theorem does_loopStep :
    Does [.mark, .report, .fault, .flags, .wrap, .enter, .number, .scope] loopStep :=
  (Does.stepwise.mono rfl).loopStep fun _ _ _ _ => (does_enterLoop _ _ _ _).mono rfl

theorem does_slotStep :
    Does [.object, .flags, .report, .fault, .scope, .enter, .discard] slotStep :=
  (Does.stepwise.mono rfl).slotStep (fun _ _ _ => (does_enterComponentSlots _ _ _).mono rfl)
    fun _ _ => (tells_enterTemplateSlot _ _).toDoes.mono rfl

/-! ## What is left to do -/

theorem does_setLoop (id : Nat) (head : LoopHead) (keyProperty : Option Expression)
    (component : Bool) (render : Block) :
    Does [.operation] (setLoop id head keyProperty component render) :=
  .bind (does_parentNode.bind rfl fun _ => .pure _ : Does [] isOnlyChild) rfl fun _ =>
    does_inOnce.bind rfl fun _ => does_operation (by simp)

theorem tells_setComponentSlots (d : Option Directive) (pattern : Option Expression)
    (firstOther : Option Location) (slots : List SlotGroup) (block : Block) :
    Tells [.slots, .report] AtMostOne (setComponentSlots d pattern firstOther slots block) := by
  unfold setComponentSlots
  split
  · exact (tells_report _ _).mono rfl
  · split
    · exact .silent (does_addSlots _) rfl .nil
    · split
      · exact (tells_report _ _).before rfl (fun _ => does_addSlots _) rfl
      · exact .silent (does_addSlots _) rfl .nil

theorem tells_setTemplateSlot (d : Directive) (condition otherwise loop : Option Directive)
    (head : Option LoopHead) (block : Block) :
    Tells [.give, .report] AtMostOne (setTemplateSlot d condition otherwise loop head block) := by
  refine .after does_parentFrame? rfl fun parent => ?_
  split
  · exact .pure _ .nil
  · split
    · exact .silent (does_give _) rfl .nil
    · exact (tells_report _ _).mono rfl

end Lower

open Lower in
def Exit.deeds : Exit → List Deed
  | .branch _ _ => [.leave, .branch]
  | .otherwise _ => [.leave, .attach]
  | .loop _ _ _ _ _ => [.leave, .scope, .operation]
  | .reference _ => [.number, .work]
  | .element _ => elementDeeds
  | .componentSlots _ _ _ _ => [.leave, .scope, .slots, .report]
  | .templateSlot _ _ _ _ _ _ => [.leave, .scope, .give, .report]
  | .added _ => []

namespace Lower

theorem does_runExit {exit : Exit} (hown : exit.isOwn = true) : Does exit.deeds (runExit .none exit) := by
  cases exit with
  | branch id condition =>
    exact does_inOnce.bind rfl fun _ => does_exitBlock.bind rfl fun _ =>
      (Does.ofChange (d := .branch) (uniform_modifyPlan _) fun _ => Or.inr (.branch _)).mono rfl
  | otherwise condition =>
    exact does_inOnce.bind rfl fun _ => does_exitBlock.bind rfl fun _ =>
      (does_attach _).mono rfl
  | loop id head keyProperty component scope =>
    exact does_exitBlock.bind rfl fun _ => (does_popScope _).bind rfl fun _ => (does_setLoop _ _ _ _ _).mono rfl
  | reference value => exact does_exitReference value
  | element cursor => exact does_exitElement cursor
  | componentSlots d pattern firstOther scope =>
    exact does_takeSlots.bind rfl fun _ => does_exitBlock.bind rfl fun _ => (does_popScope _).bind rfl fun _ =>
      (tells_setComponentSlots _ _ _ _ _).toDoes.mono rfl
  | templateSlot d condition otherwise loop head scope =>
    exact does_exitBlock.bind rfl fun _ => (does_popScope _).bind rfl fun _ =>
      (tells_setTemplateSlot _ _ _ _ _ _).toDoes.mono rfl
  | added run => cases hown

end Lower

end JsxTemplate
