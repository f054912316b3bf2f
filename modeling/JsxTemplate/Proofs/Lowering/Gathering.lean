import JsxTemplate.Proofs.Lowering.Termination

/-!
# Properties are gathered once

If mistakes are collected, the properties of every element that is reached through children are gathered
exactly once, although an element with a condition or a loop is met again inside its wrapper. At that
moment the blocks of its condition and of its loop are open, the latter inside the former.

A visit of a node concerns only the nodes below it (`tame_untouched`), and settles those
(`gathered_lowerNode`).
-/

namespace JsxTemplate

variable {path q : Path} {t : Template} {c : Context} {tag : Tag} {v : Visited}

/-! ## Nodes that are reached through children -/

/-- The node of a template that is reached through children along a path. -/
def Template.childAt? (t : Template) : Path → Option Node
  | [] => none
  | [i] => t.children[i]?
  | i :: j :: path => (t.childAt? (j :: path)).bind fun n => n.children[i]?

namespace Template

variable {t : Template}

theorem childAt?_cons {n : Node} (h : t.childAt? path = some n) (i : Nat) :
    t.childAt? (i :: path) = n.children[i]? := by
  cases path with
  | nil => cases h
  | cons j path => rw [childAt?, h, Option.bind_some]

theorem childAt?_parent {i j : Nat} {m : Node} (h : t.childAt? (i :: j :: path) = some m) :
    ∃ n, t.childAt? (j :: path) = some n ∧ n.children[i]? = some m :=
  Option.bind_eq_some_iff.mp h

theorem nodeAt?_of_childAt? {n : Node} (h : t.childAt? path = some n) : t.nodeAt? path = some n := by
  induction path generalizing n with
  | nil => cases h
  | cons i path ih =>
    cases path with
    | nil => exact h
    | cons j path =>
      obtain ⟨m, hm, hn⟩ := childAt?_parent h
      rw [nodeAt?_cons (ih hm)]
      cases m with
      | expression e roots loc => simp [Node.children] at hn
      | _ => exact hn

theorem childAt?_of_suffix {p q : Path} (hp : p ≠ []) (h : p <:+ q) (hq : (t.childAt? q).isSome = true) :
    (t.childAt? p).isSome = true := by
  induction q with
  | nil => exact absurd (List.suffix_nil.mp h) hp
  | cons i q ih =>
    rcases List.suffix_cons_iff.mp h with rfl | h
    · exact hq
    · cases q with
      | nil => exact absurd (List.suffix_nil.mp h) hp
      | cons j q =>
        obtain ⟨m, hm⟩ := Option.isSome_iff_exists.mp hq
        obtain ⟨n, hn, -⟩ := childAt?_parent hm
        exact ih h (by rw [hn]; rfl)

theorem not_suffix_of_expression {path q : Path} {e : Expression} {roots : List Node} {loc : Location}
    (h : t.nodeAt? path = some (.expression e roots loc)) (hq : (t.childAt? q).isSome = true) (i : Nat) :
    ¬ (i :: path) <:+ q := by
  intro hsuffix
  obtain ⟨m, hm⟩ := Option.isSome_iff_exists.mp (childAt?_of_suffix (by simp) hsuffix hq)
  cases path with
  | nil => cases h
  | cons j path =>
    obtain ⟨n, hn, hchild⟩ := childAt?_parent hm
    obtain rfl := Option.some.inj ((nodeAt?_of_childAt? hn).symm.trans h)
    simp [Node.children] at hchild

end Template

theorem Visited.suffix_of_child {v c : Visited} (hc : c ∈ v.children) : v.path <:+ c.path := by
  cases v with
  | root t => exact List.nil_suffix
  | node path n =>
    simp only [children, List.mem_map] at hc
    obtain ⟨⟨m, i⟩, -, rfl⟩ := hc
    exact List.suffix_cons _ _
  | wrapped path tag children =>
    simp only [Visited.children, List.mem_singleton] at hc
    subst hc
    exact List.suffix_refl _

/-! ## Nodes that a visit does not concern -/

/-- Whether the walk has neither marked an element nor gathered its properties. -/
structure Untouched (q : Path) (c c' : Context) : Prop where
  gathered : gatheredAt q c'.log = gatheredAt q c.log
  seen : ∀ purpose, purpose ≠ Lower.textPurpose → ((q, purpose) ∈ c'.seen ↔ (q, purpose) ∈ c.seen)

namespace Untouched

variable {q : Path} {c c' c'' : Context}

theorem refl (q : Path) (c : Context) : Untouched q c c := ⟨rfl, fun _ _ => Iff.rfl⟩

theorem trans (h : Untouched q c c') (h' : Untouched q c' c'') : Untouched q c c'' :=
  ⟨h'.gathered.trans h.gathered, fun purpose hp => (h'.seen purpose hp).trans (h.seen purpose hp)⟩

theorem ofHushed (h : Hushed c c') : Untouched q c c' :=
  ⟨h.gathered q, fun _ _ => by rw [h.seen]⟩

theorem ofNears (h : Lower.Nears c c') (hv : c.frame.node = some v) (hq : v.path ≠ q) :
    Untouched q c c' where
  gathered := h.gathered q
  seen := by
    refine fun purpose _ => ⟨fun hm => ?_, h.grows.seen _⟩
    rcases h.seen v hv _ hm with hm | ⟨hm, -⟩
    · exact hm
    · exact absurd hm.symm hq

end Untouched

namespace Lower

theorem ne_of_not_suffix {p q : Path} (h : ¬ p <:+ q) : p ≠ q := by
  rintro rfl
  exact h (List.suffix_refl _)

theorem untouched_exitElement (hv : c.frame.node = some v) (hne : v.path ≠ q) (cursor : Cursor) :
    Untouched q c (exitElement .none cursor c).2 := by
  by_cases h : ∃ path tag children, c.frame.node = some (.node path (.element tag children)) ∧
      tag.type ≠ .template
  · obtain ⟨path, tag, children, hnode, ht⟩ := h
    obtain rfl := Option.some.inj (hv.symm.trans hnode)
    have hpath : path ≠ q := hne
    have hgathered : Untouched q c { c with log := .gathered path :: c.log } :=
      ⟨by simp [gatheredAt, hpath], fun _ _ => Iff.rfl⟩
    exact hgathered.trans (.ofHushed (exitElement_of_element hnode ht cursor))
  · rw [exitElement_of_other fun path tag children hnode => by
      by_contra ht
      exact h ⟨path, tag, children, hnode, ht⟩]
    exact .refl q c

theorem not_suffix_of_mem_nestedRoots {vs : List Visited} (h : ∀ v ∈ vs, v.Valid t) {r : Visited}
    (hr : r ∈ nestedRoots vs) (hq : (t.childAt? q).isSome = true) : ¬ r.path <:+ q := by
  obtain ⟨path, e, roots, loc, n, i, hv, -, rfl⟩ := mem_nestedRoots hr
  exact Template.not_suffix_of_expression (h _ hv) hq i

theorem tame_untouched (hq : (t.childAt? q).isSome = true) :
    Tame t (fun v => ¬ v.path <:+ q) (Untouched q) where
  trans := .trans
  calm := fun hgathered hseen _ => ⟨hgathered q, hseen q⟩
  hushed := fun _ h _ => .ofHushed h
  nears := fun hv _ hpath h _ => .ofNears h hv (ne_of_not_suffix hpath)
  exit := fun hv hpath cursor => untouched_exitElement hv (ne_of_not_suffix hpath) cursor
  wrapped := fun hpath => hpath
  child := fun hpath hs hsuffix => hpath ((Visited.suffix_of_child hs).trans hsuffix)
  root := fun hvs hr => not_suffix_of_mem_nestedRoots hvs hr hq

end Lower

/-! ## The blocks of an element -/

def Tag.loopBlocks (tag : Tag) (path : Path) : List (Path × Bool) :=
  if tag.hasLoop then [(path, true)] else []

/-- Whether a list holds the block of the condition of an element. A further branch has none if there is no
condition that it follows, which is a mistake. -/
def Tag.IsBranchBlock (tag : Tag) (path : Path) (errors : List Diagnostic) (branch : List (Path × Bool)) :
    Prop :=
  match Lower.conditionDirective? tag with
  | none => branch = []
  | some d => branch = [(path, false)] ∨
    branch = [] ∧ d.name ≠ "if" ∧ ⟨.elseNoAdjacentIf, some tag.loc⟩ ∈ errors

/-- Whether the innermost of the open blocks are those of an element: the block of its loop inside the
block of its condition. -/
def Tag.OwnBlocks (tag : Tag) (path : Path) (errors : List Diagnostic) (opened : List (Path × Bool)) : Prop :=
  ∃ branch rest, opened = tag.loopBlocks path ++ branch ++ rest ∧ tag.IsBranchBlock path errors branch ∧
    ∀ b ∈ rest, b.1 ≠ path

theorem Tag.IsBranchBlock.mono {errors errors' : List Diagnostic} {branch : List (Path × Bool)}
    (h : tag.IsBranchBlock path errors branch) (he : errors <+: errors') :
    tag.IsBranchBlock path errors' branch := by
  unfold IsBranchBlock at h ⊢
  split at h
  · exact h
  · rcases h with h | ⟨h, hname, herror⟩
    · exact Or.inl h
    · exact Or.inr ⟨h, hname, he.subset herror⟩

theorem Tag.OwnBlocks.mono {errors errors' : List Diagnostic} {opened : List (Path × Bool)}
    (h : tag.OwnBlocks path errors opened) (he : errors <+: errors') :
    tag.OwnBlocks path errors' opened := by
  obtain ⟨branch, rest, heq, hbranch, hrest⟩ := h
  exact ⟨branch, rest, heq, hbranch.mono he, hrest⟩

/-- Whether the properties of the element at a path have been gathered as they must be: once, or never for
a `template`. -/
def GatheredOnce (t : Template) (q : Path) (c : Context) : Prop :=
  ∀ tag children, t.childAt? q = some (.element tag children) →
    if tag.type = .template then gatheredAt q c.log = []
    else ∃ opened, gatheredAt q c.log = [opened] ∧ tag.OwnBlocks q c.errors opened

/-- Whether nothing has been done at a path. -/
structure Fresh (q : Path) (c : Context) : Prop where
  gathered : gatheredAt q c.log = []
  seen : ∀ purpose, purpose ≠ Lower.textPurpose → (q, purpose) ∉ c.seen

/-- Whether an element, which may be met again inside its wrapper, is still to be finished. -/
structure Pending (path : Path) (tag : Tag) (c : Context) : Prop where
  gathered : gatheredAt path c.log = []
  opened : ∃ loop branch rest, openBlocks c.log = loop ++ branch ++ rest ∧
    (if (path, "for") ∈ c.seen then loop = tag.loopBlocks path else loop = []) ∧
    (if (path, "if") ∈ c.seen then tag.IsBranchBlock path c.errors branch else branch = []) ∧
    ∀ b ∈ rest, b.1 ≠ path
  order : (path, "for") ∈ c.seen → Lower.conditionDirective? tag = none ∨ (path, "if") ∈ c.seen

theorem Untouched.gatheredOnce {c c' : Context} (h : Untouched q c c') (hg : Grows c c')
    (hs : GatheredOnce t q c) : GatheredOnce t q c' := by
  intro tag children hq
  have hs := hs tag children hq
  split
  · next ht =>
    rw [if_pos ht] at hs
    exact h.gathered.trans hs
  · next ht =>
    rw [if_neg ht] at hs
    obtain ⟨opened, hgathered, hown⟩ := hs
    exact ⟨opened, h.gathered.trans hgathered, hown.mono hg.errors⟩

theorem Untouched.fresh {c c' : Context} (h : Untouched q c c') (hf : Fresh q c) : Fresh q c' :=
  ⟨h.gathered.trans hf.gathered, fun purpose hp hm => hf.seen purpose hp ((h.seen purpose hp).mp hm)⟩

theorem Untouched.pending {c c' : Context} (h : Untouched q c c') (hg : Grows c c')
    (ho : openBlocks c'.log = openBlocks c.log) (hp : Pending q tag c) : Pending q tag c' := by
  have hif := h.seen "if" (by decide)
  have hfor := h.seen "for" (by decide)
  obtain ⟨loop, branch, rest, heq, hloop, hbranch, hrest⟩ := hp.opened
  refine ⟨h.gathered.trans hp.gathered, ⟨loop, branch, rest, ho.trans heq, ?_, ?_, hrest⟩, ?_⟩
  · simpa only [hfor] using hloop
  · simp only [hif]
    split at hbranch
    · next hm =>
      rw [if_pos hm]
      exact hbranch.mono hg.errors
    · next hm =>
      rw [if_neg hm]
      exact hbranch
  · rw [hfor, hif]
    exact hp.order

theorem Fresh.pending (h : Fresh q c) (ho : ∀ b ∈ openBlocks c.log, b.1 ≠ q) (tag : Tag) :
    Pending q tag c := by
  have hif := h.seen "if" (by decide)
  have hfor := h.seen "for" (by decide)
  refine ⟨h.gathered, ⟨[], [], openBlocks c.log, rfl, ?_, ?_, ho⟩, fun hm => absurd hm hfor⟩
  · rw [if_neg hfor]
  · rw [if_neg hif]

theorem Pending.ownBlocks (hp : Pending path tag c)
    (hif : Lower.conditionDirective? tag = none ∨ (path, "if") ∈ c.seen)
    (hfor : tag.directive? "for" = none ∨ (path, "for") ∈ c.seen) :
    tag.OwnBlocks path c.errors (openBlocks c.log) := by
  obtain ⟨loop, branch, rest, heq, hloop, hbranch, hrest⟩ := hp.opened
  have hloop : loop = tag.loopBlocks path := by
    split at hloop
    · exact hloop
    · next hm =>
      have hnone := hfor.resolve_right hm
      rw [hloop, Tag.loopBlocks, Tag.hasLoop, hnone]
      rfl
  have hbranch : tag.IsBranchBlock path c.errors branch := by
    split at hbranch
    · exact hbranch
    · next hm =>
      have hnone := hif.resolve_right hm
      rw [Tag.IsBranchBlock, hnone]
      exact hbranch
  exact ⟨branch, rest, hloop ▸ heq, hbranch, hrest⟩

namespace Lower

section

variable {path : Path} {tag : Tag} {children : List Node} {c : Context}
  (hv : c.frame.node = some (.node path (.element tag children))) (hp : Pending path tag c)

include hv hp

theorem pending_conditionStep :
    Pending path tag (conditionStep c).2 ∧
      (tag.isTemplateSlot = true ∨ conditionDirective? tag = none ∨
        (path, "if") ∈ (conditionStep c).2.seen) := by
  obtain ⟨loop, branch, rest, heq, hloop, hbranch, hrest⟩ := hp.opened
  rcases conditionStep_cases hv with ⟨hrun, hidle⟩ | ⟨d, hd, hcases⟩
  · rw [hrun]
    exact ⟨hp, hidle⟩
  · have hnews : (path, "if") ∉ c.seen := by
      rcases hcases with h | ⟨h, -⟩
      · exact h.news
      · exact h.news
    -- The loop comes later, so no block of the element is open yet.
    have hfor : (path, "for") ∉ c.seen := by
      intro hm
      rcases hp.order hm with h | h
      · rw [hd] at h
        cases h
      · exact hnews h
    rw [if_neg hfor] at hloop
    rw [if_neg hnews] at hbranch
    subst hloop hbranch
    rcases hcases with h | ⟨h, hname, herror⟩
    all_goals
      have hif' : (path, "if") ∈ (conditionStep c).2.seen := by
        rw [h.seen]
        exact List.mem_cons_self
      have hfor' : (path, "for") ∉ (conditionStep c).2.seen := by
        rw [h.seen]
        simpa using hfor
      refine ⟨⟨by rw [h.log]; exact hp.gathered, ?_, fun hm => absurd hm hfor'⟩, Or.inr (Or.inr hif')⟩
    · refine ⟨[], [(path, false)], rest, ?_, by rw [if_neg hfor'], ?_, hrest⟩
      · rw [h.log]
        exact congrArg ((path, false) :: ·) heq
      · rw [if_pos hif', Tag.IsBranchBlock, hd]
        exact Or.inl rfl
    · refine ⟨[], [], rest, ?_, by rw [if_neg hfor'], ?_, hrest⟩
      · rw [h.log]
        exact heq
      · rw [if_pos hif', Tag.IsBranchBlock, hd]
        exact Or.inr ⟨rfl, hname, herror⟩

theorem pending_loopStep
    (hif : tag.isTemplateSlot = true ∨ conditionDirective? tag = none ∨ (path, "if") ∈ c.seen) :
    Pending path tag (loopStep c).2 ∧
      (tag.directive? "for" = none ∨ tag.isTemplateSlot = true ∨ (path, "for") ∈ (loopStep c).2.seen) := by
  obtain ⟨loop, branch, rest, heq, hloop, hbranch, hrest⟩ := hp.opened
  rcases loopStep_cases hv with ⟨hrun, hidle⟩ | ⟨hslot, h⟩
  · rw [hrun]
    exact ⟨hp, hidle⟩
  · have hfor' : (path, "for") ∈ (loopStep c).2.seen := by
      rw [h.seen]
      exact List.mem_cons_self
    have hif' : (path, "if") ∈ (loopStep c).2.seen ↔ (path, "if") ∈ c.seen := by
      rw [h.seen]
      simp
    have hlog : openBlocks (loopStep c).2.log = tag.loopBlocks path ++ openBlocks c.log := by
      rw [h.log, Tag.loopBlocks]
      cases tag.hasLoop <;> rfl
    have hgathered : gatheredAt path (loopStep c).2.log = gatheredAt path c.log := by
      rw [h.log]
      cases tag.hasLoop <;> rfl
    rw [if_neg h.news] at hloop
    subst hloop
    refine ⟨⟨hgathered.trans hp.gathered, ⟨tag.loopBlocks path, branch, rest, ?_, ?_, ?_, hrest⟩, ?_⟩,
      Or.inr (Or.inr hfor')⟩
    · rw [hlog, heq, List.nil_append, List.append_assoc]
    · rw [if_pos hfor']
    · simp only [hif']
      split at hbranch
      · next hm =>
        rw [if_pos hm]
        exact hbranch.mono (does_loopStep.grows c).errors
      · next hm =>
        rw [if_neg hm]
        exact hbranch
    · intro _
      rw [hif']
      rcases hif with hif | hif
      · rw [hslot] at hif
        cases hif
      · exact hif

end

theorem pending_approach {children : List Node}
    (hv : c.frame.node = some (.node path (.element tag children))) (hp : Pending path tag c) :
    Pending path tag (approach c).2 ∧
      ((approach c).2.frame.node = some (.node path (.element tag children)) → tag.type ≠ .template →
        tag.OwnBlocks path (approach c).2.errors (openBlocks (approach c).2.log)) := by
  let c₁ := (onceStep c).2
  let c₂ := (conditionStep c₁).2
  let c₃ := (loopStep c₂).2
  have honce := (plain_onceStep.tidy c).toStill
  have hp₁ : Pending path tag c₁ :=
    (Untouched.ofHushed honce.hushed).pending (plain_onceStep.grows c) (by rw [honce.log]) hp
  have hv₁ : c₁.frame.node = some (.node path (.element tag children)) := honce.node.trans hv
  obtain ⟨hp₂, hif⟩ := pending_conditionStep hv₁ hp₁
  have hlast := steady_referenceStep.still c₃
  have hlast' : Pending path tag c₃ → Pending path tag (approach c).2 :=
    (Untouched.ofHushed hlast.hushed).pending (steady_referenceStep.grows c₃)
      (congrArg openBlocks hlast.log)
  obtain ⟨v₂, hv₂, -, rfl | ⟨_, _, _, heq, rfl⟩⟩ := (nears_conditionStep c₁).node _ hv₁
  · obtain ⟨hp₃, hfor⟩ := pending_loopStep hv₂ hp₂ hif
    refine ⟨hlast' hp₃, fun _ ht => (hlast' hp₃).ownBlocks ?_ ?_⟩
    all_goals
      have hslot : tag.isTemplateSlot = false := by simp [Tag.isTemplateSlot, ht]
      have hseen : (approach c).2.seen = c₃.seen := hlast.seen
      rw [hseen]
    · rw [hslot] at hif
      rcases hif with hif | hif | hif
      · cases hif
      · exact Or.inl hif
      · exact Or.inr ((does_loopStep.grows c₂).seen _ hif)
    · rw [hslot] at hfor
      rcases hfor with hfor | hfor | hfor
      · exact Or.inl hfor
      · cases hfor
      · exact Or.inr hfor
  · have hv₂ : c₂.frame.node = _ := hv₂
    have hloop : loopStep c₂ = ([], c₂) := loopStep_of_other (by simp [hv₂])
    have hstay : c₃ = c₂ := by rw [show c₃ = (loopStep c₂).2 from rfl, hloop]
    refine ⟨hlast' (hstay ▸ hp₂), fun hnode => ?_⟩
    have hnode₂ : (approach c).2.frame.node = c₂.frame.node := hlast.node.trans (hstay ▸ rfl)
    rw [hnode₂, hv₂] at hnode
    cases hnode

end Lower

/-! ## The children of a node -/

/-- Whether the walk has not been at a node, or only as far as to a wrapper of it. -/
structure Awaits (t : Template) (v : Visited) (c : Context) : Prop where
  reached : v = .root t ∨ ∃ n, v = .node v.path n ∧ t.childAt? v.path = some n
  opened : ∀ b ∈ openBlocks c.log, b.1 <:+ v.path
  pending : ∀ tag children, v = .node v.path (.element tag children) → Pending v.path tag c
  fresh : ∀ q, (t.childAt? q).isSome = true → v.path <:+ q → q ≠ v.path → Fresh q c

namespace Awaits

variable {t : Template} {v : Visited} {c c' : Context}

theorem valid (h : Awaits t v c) : v.Valid t := by
  rcases h.reached with hroot | ⟨n, hnode, hn⟩
  · rw [hroot]
    exact rfl
  · rw [hnode]
    exact Template.nodeAt?_of_childAt? hn

theorem mono (h : Awaits t v c) (hg : Grows c c') (ho : openBlocks c'.log = openBlocks c.log)
    (hu : ∀ q, (t.childAt? q).isSome = true → v.path <:+ q → Untouched q c c') : Awaits t v c' where
  reached := h.reached
  opened := ho ▸ h.opened
  pending := by
    intro tag children hv
    have hsome : (t.childAt? v.path).isSome = true := by
      rcases h.reached with hroot | ⟨n, -, hn⟩
      · rw [hroot] at hv
        cases hv
      · rw [hn]
        rfl
    exact (hu _ hsome (List.suffix_refl _)).pending hg ho (h.pending tag children hv)
  fresh := fun q hq hsuffix hne => (hu q hq hsuffix).fresh (h.fresh q hq hsuffix hne)

theorem children (hreached : v = .root t ∨ ∃ n, v = .node v.path n ∧ t.childAt? v.path = some n)
    (ho : ∀ b ∈ openBlocks c.log, b.1 <:+ v.path)
    (hf : ∀ q, (t.childAt? q).isSome = true → v.path <:+ q → q ≠ v.path → Fresh q c) {s : Visited}
    (hs : s ∈ v.children) : Awaits t s c := by
  have hchild : ∃ i m, s = .node (i :: v.path) m ∧ t.childAt? (i :: v.path) = some m := by
    rcases hreached with hroot | ⟨n, hnode, hn⟩
    · rw [hroot] at hs ⊢
      obtain ⟨⟨m, i⟩, hm, rfl⟩ := List.mem_map.mp hs
      exact ⟨i, m, rfl, List.mem_zipIdx_iff_getElem?.mp hm⟩
    · rw [hnode] at hs
      obtain ⟨⟨m, i⟩, hm, rfl⟩ := List.mem_map.mp hs
      exact ⟨i, m, rfl, (Template.childAt?_cons hn i).trans (List.mem_zipIdx_iff_getElem?.mp hm)⟩
  obtain ⟨i, m, rfl, hm⟩ := hchild
  have hshort : ∀ q, (i :: v.path) <:+ q → q ≠ v.path := by
    rintro q hq rfl
    have hlen := hq.length_le
    simp only [List.length_cons] at hlen
    omega
  have hfresh : ∀ q, (t.childAt? q).isSome = true → (i :: v.path) <:+ q → Fresh q c := fun q hq hsuffix =>
    hf q hq ((List.suffix_cons i v.path).trans hsuffix) (hshort q hsuffix)
  refine ⟨Or.inr ⟨m, rfl, hm⟩, fun b hb => (ho b hb).trans (List.suffix_cons i v.path), ?_, ?_⟩
  · intro tag children _
    refine (hfresh _ (by rw [hm]; rfl) (List.suffix_refl _)).pending (fun b hb heq => ?_) tag
    exact hshort v.path (heq ▸ ho b hb) rfl
  · exact fun q hq hsuffix _ => hfresh q hq hsuffix

theorem exists_child (h : Awaits t v c) (hq : (t.childAt? q).isSome = true) (hsuffix : v.path <:+ q)
    (hne : q ≠ v.path) : ∃ s ∈ v.children, s.path <:+ q := by
  obtain ⟨before, rfl⟩ := hsuffix
  rcases List.eq_nil_or_concat before with rfl | ⟨before, i, rfl⟩
  · exact absurd (List.nil_append _) hne
  · rw [List.concat_eq_append] at hq ⊢
    have hchild : (i :: v.path) <:+ (before ++ [i]) ++ v.path := ⟨before, by simp⟩
    obtain ⟨m, hm⟩ := Option.isSome_iff_exists.mp (Template.childAt?_of_suffix (by simp) hchild hq)
    refine ⟨.node (i :: v.path) m, ?_, hchild⟩
    rcases h.reached with hroot | ⟨n, hnode, hn⟩
    · rw [hroot] at hm ⊢
      exact List.mem_map.mpr ⟨(m, i), List.mem_zipIdx_iff_getElem?.mpr hm, rfl⟩
    · rw [Template.childAt?_cons hn] at hm
      rw [hnode]
      exact List.mem_map.mpr ⟨(m, i), List.mem_zipIdx_iff_getElem?.mpr hm, rfl⟩

end Awaits

theorem Visited.pairwise_children {R : Path → Path → Prop}
    (h : ∀ path {i j : Nat}, i < j → R (i :: path) (j :: path)) (v : Visited) :
    v.children.Pairwise fun a b => R a.path b.path := by
  have hnodes : ∀ (path : Path) (ns : List Node), (ns.zipIdx.map fun c => Visited.node (c.2 :: path) c.1).Pairwise
      fun a b => R a.path b.path := by
    intro path ns
    have hindices : ns.zipIdx.Pairwise fun a b => a.2 < b.2 := by
      refine List.pairwise_map.mp ?_
      rw [List.zipIdx_map_snd]
      exact List.pairwise_lt_range'
    exact List.pairwise_map.mpr (hindices.imp fun hlt => h path hlt)
  cases v with
  | root t => exact hnodes [] t.children
  | node path n => exact hnodes path n.children
  | wrapped path tag children => exact List.pairwise_singleton _ _

theorem Visited.children_apart (v : Visited) :
    v.children.Pairwise fun a b => ∀ q, a.path <:+ q → ¬ b.path <:+ q := by
  refine v.pairwise_children (R := fun a b => ∀ q, a <:+ q → ¬ b <:+ q) fun path i j hlt q ha hb => ?_
  have heq : i :: path = j :: path := (List.suffix_of_suffix_length_le ha hb (Nat.le_refl _)).eq_of_length rfl
  have hindex := (List.cons.inj heq).1
  omega

namespace Lower

variable {visit : Lower Unit}

/-- Whether a visit gathers the properties of all elements below the visited node. -/
def Settles (t : Template) (n : Nat) (visit : Lower Unit) : Prop :=
  ∀ c v, Collecting c → Sound t c → Affords n c → c.frame.node = some v → Awaits t v c →
    ∀ q, (t.childAt? q).isSome = true → v.path <:+ q → GatheredOnce t q (visit c).2

section

variable {n : Nat} (hsettles : Settles t n visit)
  (hspares : ∀ q, (t.childAt? q).isSome = true → Relates t (fun v => ¬ v.path <:+ q) (Untouched q) visit)
  (hbalanced : Balanced visit) (hvalid : v.Valid t)

include hsettles hspares hbalanced hvalid

theorem gathered_lowerChildren (isFragment : Bool) (index : Nat) {children : List Visited}
    (hsub : ∀ s ∈ children, s ∈ v.children)
    (hapart : children.Pairwise fun a b => ∀ q, a.path <:+ q → ¬ b.path <:+ q) (hc : Collecting c)
    (hv : c.frame.node = some v) (hcost : ∀ s ∈ v.children, s.cost c.seen ≤ n)
    (hawaits : ∀ s ∈ children, Awaits t s c) (hq : (t.childAt? q).isSome = true)
    (hbelow : ∃ s ∈ children, s.path <:+ q) :
    GatheredOnce t q (lowerChildren visit isFragment index children c).2 := by
  induction children generalizing index c with
  | nil =>
    obtain ⟨s, hs, -⟩ := hbelow
    cases hs
  | cons child children ih =>
    have hnode : ∀ w, c.frame.node = some w → w.Valid t := fun w hw =>
      Option.some.inj (hv.symm.trans hw) ▸ hvalid
    have hchild := hawaits child List.mem_cons_self
    have hresumed := resumed_afterChild hbalanced hc isFragment child index
    have hc' := hresumed.grows.collecting hc
    have hv' := hresumed.node.trans hv
    have hnode' : ∀ w, (afterChild visit isFragment child index c).frame.node = some w → w.Valid t :=
      fun w hw => hnode w (hresumed.node ▸ hw)
    obtain ⟨hhead, htail⟩ := List.pairwise_cons.mp hapart
    rw [lowerChildren_collecting hbalanced hc]
    by_cases hfirst : child.path <:+ q
    · -- The element stands below the first child, and the other children do not concern it.
      have hsound : Sound t (c.enterChild child index) := by
        refine ⟨?_, hnode⟩
        rintro w ⟨⟩
        exact hchild.valid
      have hvisited := hsettles _ child ((grows_enterChild child index c).collecting hc) hsound
        (affords_enterChild hv hcost (hsub child List.mem_cons_self) index) rfl
        (hchild.mono (grows_enterChild child index c) rfl fun _ _ _ => ⟨rfl, fun _ _ => Iff.rfl⟩) q hq hfirst
      have htaken := ((tame_untouched hq).takeChild isFragment _).gatheredOnce (growing_takeChild isFragment _) hvisited
      have hrest : ∀ s ∈ children, s.Valid t ∧ ¬ s.path <:+ q := fun s hs =>
        ⟨(hawaits s (List.mem_cons_of_mem _ hs)).valid, hhead s hs q hfirst⟩
      exact ((tame_untouched hq).lowerChildren (hspares q hq) hbalanced isFragment (index + 1) hrest hc' hnode').gatheredOnce
        (growing_lowerChildren hbalanced.grows isFragment (index + 1) children _) htaken
    · obtain ⟨s, hs, hsuffix⟩ := hbelow
      have hs : s ∈ children := (List.mem_cons.mp hs).resolve_left (by rintro rfl; exact hfirst hsuffix)
      refine ih (index + 1) (fun s hs => hsub s (List.mem_cons_of_mem _ hs)) htail hc' hv'
        (fun s hs => Nat.le_trans (Visited.cost_mono hresumed.grows.seen s) (hcost s hs)) ?_ ⟨s, hs, hsuffix⟩
      intro s hs
      refine (hawaits s (List.mem_cons_of_mem _ hs)).mono hresumed.grows
        (congrArg Stacks.opened hresumed.kept) fun q hq hsuffix => ?_
      exact (tame_untouched hq).afterChild (hspares q hq) hchild.valid (fun h => hhead s hs q h hsuffix) hc hnode
        isFragment index

theorem gathered_childrenStep (hc : Collecting c) (hv : c.frame.node = some v)
    (hcost : v.cost c.seen ≤ n + 1) (hawaits : ∀ s ∈ v.children, Awaits t s c)
    (hq : (t.childAt? q).isSome = true) (hbelow : ∃ s ∈ v.children, s.path <:+ q) :
    GatheredOnce t q (childrenStep visit c).2 := by
  have hcost : ∀ s ∈ v.children, s.cost c.seen ≤ n := by
    intro s hs
    have hchild : s.cost c.seen + 1 ≤ v.cost c.seen := Visited.cost_child hs
    omega
  obtain ⟨runs, heq, -⟩ := childrenStep_eq visit hv
  rw [heq]
  exact (Untouched.ofHushed ((steady_insertRuns runs).hushing _)).gatheredOnce ((steady_insertRuns runs).grows _)
    (gathered_lowerChildren hsettles hspares hbalanced hvalid v.isFragment 0 (fun _ hs => hs)
      v.children_apart hc hv hcost hawaits hq hbelow)

end

theorem opened_of_course {c c₁ c₂ c₃ c₄ c₅ c' : Context} (hcourse : Course visit c c₁ c₂ c₃ c₄ c₅ c')
    (hv : c.frame.node = some v) (ho : ∀ b ∈ openBlocks c.log, b.1 <:+ v.path) :
    ∀ b ∈ openBlocks c₃.log, b.1 <:+ v.path := by
  have hnears : Nears c c₁ := hcourse.comes ▸ nears_approach c
  obtain ⟨v₁, hv₁, hpath⟩ := hnears.path hv
  have hv₂ : c₂.frame.node = some v₁ := hcourse.slots.node.symm.trans (hcourse.node.1.trans hv₁)
  intro b hb
  rcases hcourse.slots.opened b hb with hb | hb
  · rw [hcourse.opened.1] at hb
    rcases hnears.opened v hv b hb with hb | hb
    · exact ho b hb
    · exact hb ▸ List.suffix_refl _
  · rw [hv₂] at hb
    exact hb ▸ hpath ▸ List.suffix_refl _

theorem gathered_of_element {c c₁ c₂ c₃ c₄ c₅ c' : Context} {children : List Node}
    (hcourse : Course visit c c₁ c₂ c₃ c₄ c₅ c')
    (hv : c.frame.node = some (.node path (.element tag children)))
    (hv₁ : c₁.frame.node = some (.node path (.element tag children)))
    (hn : t.childAt? path = some (.element tag children)) (hp : Pending path tag c)
    (hu : Untouched path c₁ c₄) : GatheredOnce t path c' := by
  obtain ⟨hp₁, hown⟩ := pending_approach hv hp
  rw [← hcourse.comes] at hp₁ hown
  obtain ⟨cursor, hends⟩ := hcourse.ends
  have hbefore : gatheredAt path c₅.log = [] :=
    ((hcourse.leaves.gathered path).trans hu.gathered).trans hp₁.gathered
  have hv₅ := hcourse.node.2.trans hv₁
  intro tag' children' heq
  obtain ⟨rfl, rfl⟩ := Node.element.inj (Option.some.inj (hn.symm.trans heq))
  split
  · next ht =>
    have hrun : exitElement .none cursor c₅ = ((), c₅) := by
      refine exitElement_of_other (fun _ _ _ hw => ?_) cursor
      cases Option.some.inj (hv₅.symm.trans hw)
      exact ht
    rw [hends.gathered, hrun]
    exact hbefore
  · next ht =>
    have hgathered := exitElement_of_element hv₅ ht cursor
    refine ⟨openBlocks c₅.log, ?_, ?_⟩
    · rw [hends.gathered, hgathered.gathered, gatheredAt, if_pos rfl, hbefore]
    · rw [hcourse.opened.2]
      refine (hown hv₁ ht).mono ?_
      exact (hcourse.grows.1.trans (hcourse.grows.2.1.trans hcourse.grows.2.2)).errors

theorem gathered_lowerNode (t : Template) (depth : Nat) : Settles t depth (lowerNode .none depth) := by
  induction depth with
  | zero =>
    intro c v _ _ hn hv
    have hpos : 0 < v.cost c.seen := v.cost_pos
    have hcost := hn.node v hv
    omega
  | succ depth ih =>
    intro c v hc hsound hn hv hawaits q hq hsuffix
    have hspares : ∀ q, (t.childAt? q).isSome = true →
        Relates t (fun v => ¬ v.path <:+ q) (Untouched q) (lowerNode .none depth) := fun _ hq =>
      (tame_untouched hq).lowerNode depth
    have hbalanced := balanced_lowerNode depth
    obtain ⟨c₁, c₂, c₃, c₄, c₅, hcourse⟩ := course_lowerNode hc (by rw [hv]; rfl) depth
    have hnears : Nears c c₁ := hcourse.comes ▸ nears_approach c
    obtain ⟨v₁, hv₁, hcost₁, hkind⟩ := hnears.node v hv
    have hvalid₁ := hnears.valid hv hv₁ hawaits.valid
    have hv₃ := hcourse.node.1.trans hv₁
    have hcost₃ : v₁.cost c₃.seen ≤ depth + 1 :=
      Nat.le_trans (Visited.cost_mono hcourse.grows.1.seen v₁) (Nat.le_trans hcost₁ (hn.node v hv))
    have hopened₃ := opened_of_course hcourse hv hawaits.opened
    have hcalm : ∀ q, (t.childAt? q).isSome = true → Untouched q c₁ c₃ := fun q hq =>
      (tame_untouched hq).course (hspares q hq) hbalanced hcourse hsound hv
    have hfresh₃ : ∀ q, (t.childAt? q).isSome = true → v.path <:+ q → q ≠ v.path → Fresh q c₃ :=
      fun q hq hsuffix hne => ((Untouched.ofNears hnears hv hne.symm).trans (hcalm q hq)).fresh
        (hawaits.fresh q hq hsuffix hne)
    obtain ⟨cursor, hends⟩ := hcourse.ends
    rcases hkind with rfl | ⟨path, tag, children, rfl, rfl⟩
    · have hchildren : ∀ s ∈ v₁.children, Awaits t s c₃ := fun s hs =>
        Awaits.children hawaits.reached hopened₃ hfresh₃ hs
      by_cases hne : q = v₁.path
      · -- The node itself: if it is an element, it is finished after its children.
        subst hne
        intro tag children hn
        rcases hawaits.reached with hroot | ⟨n, hnode, hn'⟩
        · rw [hroot] at hn
          cases hn
        · obtain rfl := Option.some.inj (hn'.symm.trans hn)
          have hbelow : ∀ s ∈ v₁.children, ¬ s.path <:+ v₁.path := by
            rw [hnode]
            intro s hs hsuffix
            obtain ⟨⟨m, i⟩, -, rfl⟩ := List.mem_map.mp hs
            have hlen := hsuffix.length_le
            simp only [Visited.path, List.length_cons] at hlen
            omega
          have hvisited := (tame_untouched hq).childrenStep (hspares _ hq) hbalanced hcourse.collecting.2 hv₃ hvalid₁ hbelow
          rw [← hcourse.children] at hvisited
          exact gathered_of_element hcourse (hnode ▸ hv) (hnode ▸ hv₁) hn (hawaits.pending tag children hnode)
            ((hcalm _ hq).trans hvisited) tag children hn
      · have hlower := gathered_childrenStep ih hspares hbalanced hvalid₁ hcourse.collecting.2 hv₃ hcost₃
          hchildren hq (hawaits.exists_child hq hsuffix hne)
        rw [← hcourse.children] at hlower
        refine Untouched.gatheredOnce ?_ hcourse.grows.2.2 hlower
        have hexit := untouched_exitElement (hcourse.node.2.trans hv₁) (Ne.symm hne) cursor
        exact ((Untouched.ofHushed hcourse.leaves).trans hexit).trans (.ofHushed hends)
    · -- The wrapper: the element is its only child, and is finished there.
      have hslotless : c₃ = c₂ := hcourse.slotless (by simp [hv₁])
      have hreached : t.childAt? path = some (.element tag children) := by
        rcases hawaits.reached with hroot | ⟨n, hnode, hn⟩
        · cases hroot
        · cases hnode
          exact hn
      have hp₁ := (pending_approach hv (hawaits.pending tag children rfl)).1
      rw [← hcourse.comes] at hp₁
      have hp₃ : Pending path tag c₃ := (hcalm path (by rw [hreached]; rfl)).pending hcourse.grows.1
        (by rw [hslotless, hcourse.opened.1]) hp₁
      have hchild : Awaits t (.node path (.element tag children)) c₃ := by
        refine ⟨hawaits.reached, hopened₃, fun tag' children' heq => ?_, hfresh₃⟩
        cases heq
        exact hp₃
      have hlower := gathered_childrenStep ih hspares hbalanced hvalid₁ hcourse.collecting.2 hv₃ hcost₃
        (fun s hs => List.mem_singleton.mp hs ▸ hchild) hq ⟨_, List.mem_singleton_self _, hsuffix⟩
      rw [← hcourse.children] at hlower
      refine Untouched.gatheredOnce ?_ hcourse.grows.2.2 hlower
      have hexit : exitElement .none cursor c₅ = ((), c₅) :=
        exitElement_of_other (by simp [hcourse.node.2.trans hv₁]) cursor
      rw [hexit] at hends
      exact (Untouched.ofHushed hcourse.leaves).trans (.ofHushed hends)

end Lower

theorem awaits_ofTemplate (o : LoweringOptions) (t : Template) :
    Awaits t (.root t) (Context.ofTemplate o t) where
  reached := Or.inl rfl
  opened := fun _ hb => by cases hb
  pending := fun _ _ h => by cases h
  fresh := fun _ _ _ _ => ⟨rfl, fun _ _ hm => by cases hm⟩

/-- If mistakes are collected, the walk over a template ends by itself: it makes no difference how much
deeper it may go. It ends without a fault if the heads of all loops can be cut. It gathers the properties of every element and component that is reached through
children exactly once, and never those of a `template`. At that moment the blocks of the condition and of
the loop of the element are open, the latter inside the former. -/
theorem properties_gathered_once (o : LoweringOptions) (t : Template) (ho : o.collectErrors = true) :
    (∀ depth, t.depth ≤ depth →
      Lower.lowerNode .none depth (Context.ofTemplate o t) = ((), t.lower o .none)) ∧
    (t.CutsLoops → (t.lower o .none).fault = none) ∧
    ∀ path tag children, t.childAt? path = some (.element tag children) →
      if tag.type = .template then gatheredAt path (t.lower o .none).log = []
      else ∃ opened, gatheredAt path (t.lower o .none).log = [opened] ∧
        tag.OwnBlocks path (t.lower o .none).errors opened := by
  have hc : Collecting (Context.ofTemplate o t) := ⟨ho, rfl⟩
  have hn := Lower.affords_ofTemplate o t
  have hsound := sound_ofTemplate o t
  refine ⟨?_, ?_, ?_⟩
  · intro depth hdepth
    rw [Lower.lowerNode_of_affords hdepth hc hn]
    rfl
  · intro ht
    exact (Lower.tame_fault ht).lowerNode t.depth _ _ hc hsound rfl trivial
  · intro path tag children hpath
    exact Lower.gathered_lowerNode t t.depth _ _ hc hsound hn rfl (awaits_ofTemplate o t) path
      (by rw [hpath]; rfl) List.nil_suffix tag children hpath

/-- An element with a condition and a loop is met three times, and its properties are gathered once. -/
theorem properties_gathered_once_nested :
    let item := fun name content =>
      TagItem.attribute ⟨name, none, .stub, some ⟨content, false, .stub⟩, .stub⟩
    let o : LoweringOptions := ⟨true, fun _ => false⟩
    let tag : Tag := ⟨"p", .element, [item "v-if" "a", item "v-for" "b in c"], true, .stub⟩
    let t : Template := ⟨"", [.element tag []], .stub⟩
    o.collectErrors = true ∧ t.CutsLoops ∧ (t.lower o .none).fault = none ∧
      t.childAt? [0] = some (.element tag []) ∧
      ∃ opened, gatheredAt [0] (t.lower o .none).log = [opened] ∧
        tag.OwnBlocks [0] (t.lower o .none).errors opened := by
  intro item o tag t
  have hcuts : t.CutsLoops := by
    have hnode : ∀ path n, t.nodeAt? path = some n → n = .element tag [] := by
      intro path
      induction path with
      | nil => intro n h; cases h
      | cons i path ih =>
        intro n h
        cases path with
        | nil =>
          have hmem : n ∈ [Node.element tag []] := List.mem_of_getElem? h
          exact List.mem_singleton.mp hmem
        | cons j path =>
          obtain ⟨m, hm, hn⟩ := Option.bind_eq_some_iff.mp h
          obtain rfl := ih m hm
          cases hn
    intro path tag' children hpath
    obtain ⟨rfl, -⟩ := Node.element.inj (hnode path _ hpath)
    decide +kernel
  obtain ⟨-, hfault, hgathered⟩ := properties_gathered_once o t rfl
  have h := hgathered [0] tag [] rfl
  rw [if_neg (by decide)] at h
  exact ⟨rfl, hcuts, hfault hcuts, rfl, h⟩

/-- A loop whose names are only blanks that part no words cannot be cut, and the walk ends with a fault. -/
theorem fault_of_blank_loop :
    let item := fun name content =>
      TagItem.attribute ⟨name, none, .stub, some ⟨content, true, .stub⟩, .stub⟩
    let tag : Tag := ⟨"div", .element, [item "v-for" "\u00a0 in list", item "id" "a"], true, .stub⟩
    let t : Template := ⟨"", [.element tag []], .stub⟩
    (t.lower ⟨true, fun _ => false⟩ .none).fault = some .inverted := by
  decide +kernel

end JsxTemplate
