import JsxTemplate.Proofs.Lowering.Pieces
import JsxTemplate.Proofs.Lowering.SlotGroups

/-!
# Children that are dropped

What else stands in a component beside templates for slots is rendered in a slot of its own, unless the
templates leave no room for it. When the walk enters the component, it decides by the directives of the
children whether their markup is kept (`Tag.dropsOthers`). When it leaves the component, the slots that were
found say whether they are rendered (`Tag.keepsOthers`).

If nothing is wrong with the children, what is decided to be dropped is not rendered. The decision concerns
the block of the component alone: in each block that is entered inside of it, markup is kept.
-/

namespace JsxTemplate

variable {children : List Node} {c : Context} {tag : Tag} {path : Path}

/-! ## The decision and the outcome -/

/-- Whether a component has children that do not look like templates for slots. -/
def hasOthers (children : List Node) : Bool := (children.find? fun c => !isSlotChild c).isSome

namespace Tag

/-- Whether the markup of the other children of a component is dropped, as it is decided when the walk enters
the component. -/
def dropsOthers (tag : Tag) (children : List Node) : Bool :=
  hasOthers children && children.any (excludesOthers (tag.directive? "slot").isSome)

/-- Whether the other children of a component are rendered in a slot, beside the slots that were found. -/
def keepsOthers (tag : Tag) (children : List Node) (found : List SlotGroup) : Bool :=
  hasOthers children && !((tag.directive? "slot").isSome && !found.isEmpty) &&
    !SlotGroup.hasSlot found "default"

/-- The slots that a component is given when the walk leaves it. -/
def givenSlots (tag : Tag) (children : List Node) (found : List SlotGroup) (block : Block) :
    List SlotGroup :=
  if (tag.directive? "slot").isSome && !found.isEmpty then []
  else if tag.keepsOthers children found then
    SlotGroup.add found ((tag.directive? "slot").bind Directive.arg)
      ⟨block, (tag.directive? "slot").bind Directive.exp⟩
  else found

def isUnconditional (tag : Tag) : Bool :=
  (tag.directive? "if").isNone && tag.slotOtherwise?.isNone && (tag.directive? "for").isNone

/-- The known name of the slot of a template. -/
def slotName? (tag : Tag) : Option String :=
  tag.slotDirective?.bind fun d => if tag.isUnconditional then SlotGroup.knownName d.arg else none

def looksConditional (tag : Tag) : Bool := tag.hasDirective ["if", "else-if", "else", "for"]

theorem isUnconditional_of_looks (h : tag.looksConditional = false) : tag.isUnconditional = true := by
  have hnone : ∀ name ∈ ["if", "else-if", "else", "for"], tag.directive? name = none := by
    intro name hname
    by_contra hsome
    obtain ⟨d, hd⟩ := Option.ne_none_iff_exists'.mp hsome
    rw [looksConditional, hasDirective_of_directive hd (by decide) hname] at h
    cases h
  simp [isUnconditional, slotOtherwise?, hnone]

end Tag

theorem SlotGroup.knownName_eq_default {name : Option Expression} :
    knownName name = some "default" ↔ isDefaultSlot name = true := by
  cases name with
  | none | some name => simp [knownName, isDefaultSlot]

theorem excludesOthers_element {onComponent : Bool} :
    excludesOthers onComponent (.element tag children) = true ↔ ∃ d, tag.slotDirective? = some d ∧
      (onComponent = true ∨ tag.looksConditional = false ∧ isDefaultSlot d.arg = true) := by
  rw [excludesOthers, Bool.and_eq_true_iff, Option.any_eq_true, Tag.slotDirective?]
  simp only [Option.ite_none_right_eq_some, Bool.or_eq_true, Bool.and_eq_true_iff,
    Bool.not_eq_true', Tag.looksConditional]
  constructor
  · rintro ⟨htype, d, hd, h⟩
    exact ⟨d, ⟨htype, hd⟩, h⟩
  · rintro ⟨d, ⟨htype, hd⟩, h⟩
    exact ⟨htype, d, hd, h⟩

namespace Lower

theorem slots_setComponentSlots (tag : Tag) (children : List Node) (slots : List SlotGroup) (block : Block)
    (c : Context) :
    (setComponentSlots (tag.directive? "slot") ((tag.directive? "slot").bind Directive.exp)
      ((children.find? fun c => !isSlotChild c).map Node.loc) slots block c).2.frame.slots =
        c.frame.slots ++ tag.givenSlots children slots block := by
  rw [setComponentSlots_eq, Tag.givenSlots, Tag.keepsOthers, hasOthers]
  cases hmixed : (tag.directive? "slot").isSome && !slots.isEmpty with
  | true => exact (List.append_nil _).symm
  | false =>
    cases hother : children.find? fun c => !isSlotChild c with
    | none => simp [addSlots, modifyFrame]
    | some other =>
      cases hdefault : SlotGroup.hasSlot slots "default" <;> simp [addSlots, modifyFrame, report]

/-! ## The slots that are found -/

theorem SlotsAfter.names {v : Visited} {slots slots' : List SlotGroup} (h : SlotsAfter v slots slots') :
    slots' = slots ∨ ∃ tag d, v.tag? = some tag ∧ tag.slotDirective? = some d ∧
      slots'.flatMap SlotGroup.names = slots.flatMap SlotGroup.names ++ tag.slotName?.toList := by
  cases h with
  | same => exact Or.inl rfl
  | @template tag d _ _ _ htag hd hadd =>
    refine Or.inr ⟨tag, d, htag, hd, ?_⟩
    rw [SlotGroup.names_addTemplate hadd, Tag.slotName?, hd, Option.bind_some, Tag.isUnconditional]
    congr 1
    split <;> rfl

theorem found_lowerChildren (depth index : Nat) (children : List Visited) (hc : Collecting c) :
    let found := (lowerChildren (lowerNode .none depth) true index children c).2.frame.slots
    (found = c.frame.slots ∨ ∃ child ∈ children, ∃ d, child.slotDirective? = some d) ∧
      ∀ name ∈ found.flatMap SlotGroup.names, name ∈ c.frame.slots.flatMap SlotGroup.names ∨
        ∃ child ∈ children, ∃ tag, child.tag? = some tag ∧ tag.slotName? = some name := by
  induction children generalizing index c with
  | nil => exact ⟨Or.inl rfl, fun name h => Or.inl h⟩
  | cons child children ih =>
    have hbalanced := balanced_lowerNode depth
    have hc' := (grows_enterChild child index c).collecting hc
    obtain ⟨p', houter, hafter⟩ := slotsAfter_lowerNode depth hc' (v := child) rfl rfl
    have hslots : (afterChild (lowerNode .none depth) true child index c).frame.slots = p'.slots :=
      (takeChild_of_fragment houter).1
    have hrest := ih (index + 1) ((resumed_afterChild hbalanced hc true child index).grows.collecting hc)
    dsimp only at hrest ⊢
    rw [lowerChildren_collecting hbalanced hc]
    rw [hslots] at hrest
    rcases hafter.names with hsame | ⟨tag, d, htag, hd, hnames⟩
    · rw [hsame] at hrest
      refine ⟨hrest.1.imp_right fun ⟨x, hx, h⟩ => ⟨x, List.mem_cons_of_mem _ hx, h⟩, fun name hname => ?_⟩
      exact (hrest.2 name hname).imp_right fun ⟨x, hx, h⟩ => ⟨x, List.mem_cons_of_mem _ hx, h⟩
    · refine ⟨Or.inr ⟨child, List.mem_cons_self, d, by rw [Visited.slotDirective?, htag]; exact hd⟩,
        fun name hname => ?_⟩
      rcases hrest.2 name hname with hold | ⟨x, hx, h⟩
      · rw [hnames, List.mem_append] at hold
        rcases hold with hold | hnew
        · exact Or.inl hold
        · exact Or.inr ⟨child, List.mem_cons_self, tag, htag, Option.mem_toList.mp hnew⟩
      · exact Or.inr ⟨x, List.mem_cons_of_mem _ hx, h⟩

theorem element_of_child {tag tag' : Tag} {child : Visited}
    (h : child ∈ (Visited.node path (.element tag children)).children) (htag : child.tag? = some tag') :
    ∃ below, Node.element tag' below ∈ children := by
  obtain ⟨⟨n, i⟩, hn, rfl⟩ := List.mem_map.mp h
  have hn : n ∈ children := List.fst_mem_of_mem_zipIdx hn
  match n, htag with
  | .element _ below, rfl => exact ⟨below, hn⟩

def foundSlots (depth : Nat) (c : Context) : List SlotGroup :=
  (childrenStep (lowerNode .none depth) (beforeChildren (lowerNode .none depth) c)).2.frame.slots

theorem foundSlots_of_component {depth : Nat} {c : Context} {path : Path} {tag : Tag} {children : List Node}
    (hv : (beforeChildren (lowerNode .none depth) c).frame.node = some (.node path (.element tag children)))
    (ht : tag.isComponent = true) :
    foundSlots depth c = (lowerChildren (lowerNode .none depth) true 0
      (Visited.node path (.element tag children)).children
      (beforeChildren (lowerNode .none depth) c)).2.frame.slots := by
  rw [foundSlots, childrenStep_of_fragment _ hv (isFragment_of_component ht)]

section

variable {o : LoweringOptions} (ho : o.collectErrors = true) {t : Template} {depth : Nat} {c : Context}
  (h : Arrives o t (depth + 1) c) {path : Path} {tag : Tag} {children : List Node}
  (hv : (beforeChildren (lowerNode .none depth) c).frame.node = some (.node path (.element tag children)))
  (ht : tag.isComponent = true)
  (hslots : (beforeChildren (lowerNode .none depth) c).frame.slots = [])

include ho h hv ht hslots

theorem drops_of_not_kept (hothers : hasOthers children = true)
    (hkeeps : tag.keepsOthers children (foundSlots depth c) = false) :
    tag.dropsOthers children = true ∨ ∃ template d below, .element template below ∈ children ∧
      template.slotDirective? = some d ∧ isDefaultSlot d.arg = true ∧ template.looksConditional = true ∧
      template.isUnconditional = true := by
  obtain ⟨_, -, hat⟩ := atChildren (arrived_of_arrives ho h)
  obtain ⟨hfound, hnames⟩ := found_lowerChildren depth 0 (Visited.node path (.element tag children)).children
    hat.collecting
  have hchildren := foundSlots_of_component hv ht
  rw [← hchildren, hslots] at hfound hnames
  have hdrops : ∀ n ∈ children, excludesOthers (tag.directive? "slot").isSome n = true →
      tag.dropsOthers children = true := fun n hn hexcludes => by
    rw [Tag.dropsOthers, hothers, Bool.true_and]
    exact List.any_eq_true.mpr ⟨n, hn, hexcludes⟩
  have helement : ∀ child ∈ (Visited.node path (.element tag children)).children, ∀ template,
      child.tag? = some template → ∃ below, Node.element template below ∈ children :=
    fun child hchild template => element_of_child hchild
  rw [Tag.keepsOthers, hothers, Bool.true_and, Bool.and_eq_false_iff, Bool.not_eq_false',
    Bool.not_eq_false', Bool.and_eq_true_iff] at hkeeps
  rcases hkeeps with ⟨hsome, hne⟩ | hdefault
  · -- The component says itself what its slot is, and there is a template.
    rcases hfound with hnil | ⟨child, hchild, d, hd⟩
    · rw [hnil] at hne
      cases hne
    · obtain ⟨template, htag, hd⟩ := Option.bind_eq_some_iff.mp hd
      obtain ⟨below, hmem⟩ := helement child hchild template htag
      exact Or.inl (hdrops _ hmem (excludesOthers_element.mpr ⟨d, hd, Or.inl hsome⟩))
  · -- There is a template for the default slot.
    rcases hnames _ (SlotGroup.hasSlot_iff.mp hdefault) with hnone | ⟨child, hchild, template, htag, hname⟩
    · cases hnone
    · obtain ⟨below, hmem⟩ := helement child hchild template htag
      obtain ⟨d, hd, hknown⟩ := Option.bind_eq_some_iff.mp hname
      obtain ⟨hfree, hknown⟩ := Option.ite_none_right_eq_some.mp hknown
      have hdefault := SlotGroup.knownName_eq_default.mp hknown
      cases hlooks : template.looksConditional with
      | false => exact Or.inl (hdrops _ hmem (excludesOthers_element.mpr ⟨d, hd, Or.inr ⟨hlooks, hdefault⟩⟩))
      | true => exact Or.inr ⟨template, d, below, hmem, hd, hdefault, hlooks, hfree⟩

variable (hsilent : Silent (beforeChildren (lowerNode .none depth) c)
    (childrenStep (lowerNode .none depth) (beforeChildren (lowerNode .none depth) c)).2)

include hsilent

theorem name_mem_found {k : Nat} (hk : k ≤ (Visited.node path (.element tag children)).children.length)
    {j : Nat} (hj : j < k) {child : Visited}
    (hchild : (Visited.node path (.element tag children)).children[j]? = some child) {template : Tag}
    (htag : child.tag? = some template) {name : String} (hname : template.slotName? = some name) :
    name ∈ (lowerChildren (lowerNode .none depth) true 0
      ((Visited.node path (.element tag children)).children.take k)
      (beforeChildren (lowerNode .none depth) c)).2.frame.slots.flatMap SlotGroup.names := by
  have hfragment := isFragment_of_component (v := .node path (.element tag children)) ht
  obtain ⟨hvalid, hat⟩ := atChildren_of_node (arrived_of_arrives ho h) hv
  induction k with
  | zero => omega
  | succ k ih =>
    have hk' := List.getElem?_eq_getElem hk
    obtain ⟨d, rfl⟩ := hat.depth_pos (List.mem_of_getElem? hk')
    obtain ⟨ha, hquiet⟩ := silent_child ho h hv hsilent hk'
    dsimp only [comeToChild] at ha hquiet
    rw [hfragment] at ha hquiet
    rw [lowerChildren_take_succ (balanced_lowerNode (d + 1)) _ hat.collecting hk']
    obtain ⟨p', houter, hafter⟩ := slotsAfter_lowerNode (d + 1) ha.collecting
      (v := (Visited.node path (.element tag children)).children[k]) rfl rfl
    rw [afterChild, (takeChild_of_fragment houter).1]
    by_cases hlast : j = k
    · subst hlast
      obtain rfl := Option.some.inj (hk'.symm.trans hchild)
      have hresumed := (hat.children hk').2
      rw [hfragment] at hresumed
      obtain ⟨d', hd', hknown⟩ := Option.bind_eq_some_iff.mp hname
      obtain ⟨hfree, hknown⟩ := Option.ite_none_right_eq_some.mp hknown
      generalize (Visited.node path (.element tag children)).children[j] = child at *
      obtain ⟨path', below, rfl⟩ := exists_of_tag htag
      obtain ⟨head, slots, -, hadd, houter', -⟩ := visit_template ha.collecting rfl rfl rfl hd' rfl
        (by rw [hresumed.node.trans hv]; exact ht) hquiet
      obtain ⟨rfl, -⟩ := List.cons.inj (houter.symm.trans houter')
      have hnames := SlotGroup.names_addTemplate hadd
      rw [Tag.isUnconditional] at hfree
      rw [if_pos hfree, hknown] at hnames
      exact hnames ▸ List.mem_append_right _ List.mem_cons_self
    · have hold := ih (by omega) (by omega)
      rcases hafter.names with hsame | ⟨tag', d', -, -, hnames⟩
      · exact hsame ▸ hold
      · rw [hnames]
        exact List.mem_append_left _ hold

theorem not_kept_of_drops (hdrops : tag.dropsOthers children = true) :
    tag.keepsOthers children (foundSlots depth c) = false := by
  have hchildren := foundSlots_of_component hv ht
  obtain ⟨hothers, hany⟩ := Bool.and_eq_true_iff.mp hdrops
  obtain ⟨n, hn, hexcludes⟩ := List.any_eq_true.mp hany
  obtain ⟨template, below, rfl⟩ : ∃ template below, n = .element template below := by
    match n, hexcludes with
    | .element template below, _ => exact ⟨template, below, rfl⟩
  obtain ⟨d, hd, hexcludes⟩ := excludesOthers_element.mp hexcludes
  obtain ⟨j, hj, hnode⟩ := List.getElem_of_mem hn
  have hchild : (Visited.node path (.element tag children)).children[j]? =
      some (.node (j :: path) (.element template below)) := by
    simp [Visited.children, Node.children, hj, hnode]
  have hlength : (Visited.node path (.element tag children)).children.length = children.length := by
    simp [Visited.children, Node.children]
  rw [Tag.keepsOthers, hothers, Bool.true_and, Bool.and_eq_false_iff, Bool.not_eq_false',
    Bool.not_eq_false', Bool.and_eq_true_iff]
  rcases hexcludes with hsome | ⟨hlooks, hdefault⟩
  · -- The bodies of the templates are found, so there is a slot.
    refine Or.inl ⟨hsome, ?_⟩
    have hholds := (slots_lowerChildren ho h hv ht hsilent hslots (Nat.le_refl _)).1
    rw [List.take_length, ← hchildren] at hholds
    by_contra hempty
    have hnil : foundSlots depth c = [] := by simpa using hempty
    have hbodies := hholds.bodies
    rw [hnil, List.flatMap_nil] at hbodies
    have htemplate : ∃ x, slotTemplate? depth (.node path (.element tag children))
        (beforeChildren (lowerNode .none depth) c) (.node (j :: path) (.element template below), j) = some x := by
      rw [slotTemplate?, Visited.tag?, Option.bind_some, hd]
      exact ⟨_, rfl⟩
    obtain ⟨x, hx⟩ := htemplate
    have hmem := List.mem_filterMap.mpr ⟨_, List.mk_mem_zipIdx_iff_getElem?.mpr hchild, hx⟩
    exact keptBodies_ne_nil (List.ne_nil_of_mem hmem) hbodies.symm
  · right
    have hname : template.slotName? = some "default" := by
      rw [Tag.slotName?, hd, Option.bind_some, if_pos (Tag.isUnconditional_of_looks hlooks)]
      exact SlotGroup.knownName_eq_default.mpr hdefault
    have hmem := name_mem_found ho h hv ht hslots hsilent (Nat.le_refl _) (hlength ▸ hj) hchild rfl hname
    rw [List.take_length, ← hchildren] at hmem
    exact SlotGroup.hasSlot_iff.mpr hmem

end

end Lower

/-! ## Where the decision holds -/

/-- Whether the children of a node are dropped by what the node itself decides. -/
def Visited.dropsOthers : Visited → Bool
  | .node _ (.element tag children) => tag.isComponent && tag.dropsOthers children
  | _ => false

/-- Whether markup is dropped as before in the same block, or is kept in a block that was entered. -/
inductive KeepsFlag (c c' : Context) : Prop where
  | same (hsaved : c'.saved = c.saved) (hflag : c'.discarding = c.discarding)
  | entered (hsaved : c.saved.length < c'.saved.length) (hflag : c'.discarding = false)

namespace KeepsFlag

variable {c c' c'' : Context}

theorem refl (c : Context) : KeepsFlag c c := .same rfl rfl

theorem trans (h : KeepsFlag c c') (h' : KeepsFlag c' c'') : KeepsFlag c c'' := by
  cases h with
  | same hsaved hflag =>
    cases h' with
    | same hsaved' hflag' => exact .same (hsaved'.trans hsaved) (hflag'.trans hflag)
    | entered hsaved' hflag' => exact .entered (hsaved ▸ hsaved') hflag'
  | entered hsaved hflag =>
    cases h' with
    | same hsaved' hflag' => exact .entered (hsaved' ▸ hsaved) (hflag'.trans hflag)
    | entered hsaved' hflag' => exact .entered (Nat.lt_trans hsaved hsaved') hflag'

theorem of_stacks (h : c'.stacks = c.stacks) : KeepsFlag c c' :=
  .same (congrArg Stacks.saved h) (congrArg Stacks.discarding h)

end KeepsFlag

def Deed.keepsFlag : Deed → Bool
  | .leave | .discard => false
  | _ => true

theorem Deed.Changes.keepsFlag {c c' : Context} {d : Deed} (h : Changes c d c') (hd : d.keepsFlag = true) :
    KeepsFlag c c' := by
  by_cases hkept : d.isKept = true
  · exact .of_stacks (h.kept hkept).1
  · cases h with
    | enter => exact .entered (Nat.lt_succ_self _) rfl
    | scope => exact .same rfl rfl
    | leave | discard => cases hd
    | _ => exact absurd rfl hkept

def Deed.addsNoPiece : Deed → Bool
  | .piece | .leave => false
  | _ => true

theorem Deed.Changes.templates {c c' : Context} {d : Deed} (h : Changes c d c')
    (hd : d.addsNoPiece = true) : c'.templates = c.templates := by
  cases h with
  | work _ h | inset _ _ h => cases h <;> rfl
  | attach | give => rw [Lower.modifyParent_run]
  | leave | piece => cases hd
  | _ => rfl

namespace Lower

variable {o : LoweringOptions} {depth : Nat} {t : Template}

section

variable {α : Type} {deeds : List Deed} {x : Lower α} (h : Does deeds x) (c : Context)

include h

theorem Does.keepsFlag (hd : deeds.all Deed.keepsFlag = true) : KeepsFlag c (x c).2 :=
  h.related .refl .trans (fun d hmem _ _ hc => hc.keepsFlag (List.all_eq_true.mp hd d hmem)) c

theorem Does.templates (hd : deeds.all Deed.addsNoPiece = true) : (x c).2.templates = c.templates :=
  h.same (fun d hmem _ _ hc => hc.templates (List.all_eq_true.mp hd d hmem)) c

end

theorem keepsFlag_slotStep_of_element (hv : c.frame.node = some (.node path (.element tag children)))
    (ht : tag.isComponent = false) : KeepsFlag c (slotStep c).2 := by
  rw [slotStep, run_bind, node_of_some hv]
  simp only [ht, Bool.false_eq_true, if_false]
  cases tag.directive? "slot" with
  | none => exact .refl c
  | some d =>
    have hdoes : Does [.flags, .report, .fault, .scope, .enter] (do
        if tag.type == .template && (← isInComponent) then enterTemplateSlot tag d
        else
          report .slotMisplaced (some d.loc)
          return [] : Lower (List Exit)) := by
      refine does_isInComponent.bind rfl fun inside => ?_
      split
      · exact (tells_enterTemplateSlot _ _).toDoes
      · exact (does_report _ _).bind rfl fun _ => .pure _
    exact hdoes.keepsFlag c rfl

theorem discarding_slotStep (hv : c.frame.node = some (.node path (.element tag children)))
    (ht : tag.isComponent = true) (hne : children ≠ []) :
    (slotStep c).2.discarding = tag.dropsOthers children := by
  have henter : ∀ c', (enterComponentSlots tag children (tag.directive? "slot") c').2.discarding =
      tag.dropsOthers children := by
    intro c'
    rw [enterComponentSlots, Tag.dropsOthers, hasOthers]
    simp only [run_bind, Option.isSome_map]
    split
    · next hdrops => exact hdrops.symm
    · next hkeeps => exact (eq_false_of_ne_true hkeeps).symm
  have hempty : children.isEmpty = false := by simpa using hne
  rw [slotStep, run_bind, node_of_some hv]
  simp only [ht, hempty, Bool.false_eq_true, if_true, if_false]
  cases (tag.directive? "slots").bind Directive.exp with
  | none => exact henter c
  | some e => exact henter _

theorem flag_slotStep (c : Context) :
    KeepsFlag c (slotStep c).2 ∧ c.frame.node.any Visited.dropsOthers = false ∨
      c.saved.length < (slotStep c).2.saved.length ∧
        (slotStep c).2.discarding = c.frame.node.any Visited.dropsOthers := by
  by_cases hother : ∀ path tag children, c.frame.node ≠ some (.node path (.element tag children))
  · refine Or.inl ⟨by rw [slotStep_of_other hother]; exact .refl c, ?_⟩
    rcases hv : c.frame.node with _ | (_ | ⟨path, _ | _ | _ | _⟩ | _)
    case some.node.element => exact absurd hv (hother _ _ _)
    all_goals rfl
  · simp only [not_forall, not_not] at hother
    obtain ⟨path, tag, children, hv⟩ := hother
    have hdecides : c.frame.node.any Visited.dropsOthers = (tag.isComponent && tag.dropsOthers children) := by
      rw [hv]
      rfl
    rw [hdecides]
    cases ht : tag.isComponent with
    | false => exact Or.inl ⟨keepsFlag_slotStep_of_element hv ht, rfl⟩
    | true =>
      obtain ⟨objects, -, hempty, hslots⟩ := slotStep_of_component hv ht
      by_cases hne : children = []
      · refine Or.inl ⟨by rw [hempty hne]; exact .same rfl rfl, ?_⟩
        rw [hne]
        rfl
      · obtain ⟨-, -, s, hsaved, -⟩ := hslots hne
        refine Or.inr ⟨by rw [hsaved]; exact Nat.lt_succ_self _, ?_⟩
        rw [discarding_slotStep hv ht hne, Bool.true_and]

/-- When the walk turns to the children of a node, markup is dropped as it was at the node; but if a block was
entered, only if this is the block of a component that drops its children. -/
theorem flag_beforeChildren (hc : Collecting c) (depth : Nat) : let c' := beforeChildren (lowerNode .none depth) c
    c'.saved = c.saved ∧ c'.discarding = c.discarding ∨
      c.saved.length < c'.saved.length ∧ c'.discarding = c'.frame.node.any Visited.dropsOthers := by
  have htexts := fixed_textStep (balanced_lowerNode depth)
  have hc₁ := (nears_approach c).grows.collecting hc
  have hgo := ((htexts.grows _).collecting hc₁).goesOn
  have hflag := (does_approach.keepsFlag c rfl).trans (.of_stacks (htexts.kept _ hgo))
  dsimp only
  rw [beforeChildren, (hushing_slotStep _).node]
  generalize (textStep (lowerNode .none depth) (approach c).2).2 = c₂ at hflag ⊢
  rcases flag_slotStep c₂ with ⟨hslots, hnone⟩ | ⟨hsaved, hdecides⟩
  · cases hflag.trans hslots with
    | same hsaved hflag => exact Or.inl ⟨hsaved, hflag⟩
    | entered hsaved hflag => exact Or.inr ⟨hsaved, hflag.trans hnone.symm⟩
  · refine Or.inr ⟨?_, hdecides⟩
    cases hflag with
    | same hsame => exact hsame ▸ hsaved
    | entered hlt => exact Nat.lt_trans hlt hsaved

/-! ## Pieces of markup -/

/-- Whether an action adds no piece of markup while markup is dropped. -/
def Spares {α : Type} (x : Lower α) : Prop :=
  ∀ c : Context, c.discarding = true → (x c).2.discarding = true ∧ (x c).2.templates = c.templates

theorem Spares.bind {α β : Type} {x : Lower α} {f : α → Lower β} (hx : Spares x)
    (hf : ∀ a, Spares (f a)) : Spares (x >>= f) := by
  intro c hc
  obtain ⟨hflag, htemplates⟩ := hx c hc
  obtain ⟨hflag', htemplates'⟩ := hf (x c).1 (x c).2 hflag
  exact ⟨hflag', htemplates'.trans htemplates⟩

theorem Does.spares {α : Type} {deeds : List Deed} {x : Lower α} (h : Does deeds x)
    (hd : deeds.all (fun d => d.addsNoPiece && d.isKept) = true) : Spares x := by
  intro c hc
  have hall := List.all_eq_true.mp hd
  refine ⟨?_, h.templates c (List.all_eq_true.mpr fun d hmem => (Bool.and_eq_true_iff.mp (hall d hmem)).1)⟩
  refine (h.same (f := Context.discarding) (fun d hmem _ _ hchanges => ?_) c).trans hc
  exact congrArg Stacks.discarding (hchanges.kept (Bool.and_eq_true_iff.mp (hall d hmem)).2).1

theorem spares_registerTemplate : Spares registerTemplate := by
  intro c hc
  rcases registerTemplate_cases c with ⟨hrun, -⟩ | ⟨_, _, -, -, -, hflag, -⟩
  · rw [hrun]
    exact ⟨hc, rfl⟩
  · rw [hc] at hflag
    cases hflag

theorem spares_placeElement (tag : Tag) (template : String) : Spares (placeElement tag template) := by
  refine ((does_isMisplaced tag).spares rfl).bind fun misplaced => ?_
  split
  · refine (does_reference.spares rfl).bind fun id => ?_
    intro c hc
    have hpiece : pushPiece template c = (none, c) := by
      simp [pushPiece, run_bind, hc]
    rw [run_bind, hpiece]
    exact ⟨hc, rfl⟩
  · exact (does_markup fun _ => rfl).spares rfl

theorem spares_exitElement (cursor : Cursor) : Spares (exitElement .none cursor) := by
  refine (does_node.spares rfl).bind fun v => ?_
  split
  · split
    · exact fun c hc => ⟨hc, rfl⟩
    · refine Spares.bind (fun c hc => ⟨hc, rfl⟩) fun _ => ((does_propertiesOf _ _ _).spares rfl).bind fun r => ?_
      refine (does_isSingleRoot.spares rfl).bind fun singleRoot => ?_
      split
      · exact (does_lowerComponent _ _ _).spares rfl
      · exact ((does_attributesOf _ _ _).spares rfl).bind fun _ => (does_takeChildTemplates.spares rfl).bind
          fun _ => ((does_root (· || singleRoot)).spares rfl).bind fun _ => spares_placeElement _ _
  · exact fun c hc => ⟨hc, rfl⟩

theorem spares_addToBlock : Spares addToBlock := by
  intro c hc
  obtain ⟨roots, heq⟩ := addToBlock_eq c
  rw [heq]
  exact ((does_reference.spares rfl).bind fun _ => spares_registerTemplate) c hc

theorem spares_popFrame : Spares popFrame := by
  intro c hc
  cases h : c.outer with
  | nil => exact ⟨by simp [popFrame, h, hc], by simp [popFrame, h]⟩
  | cons p ps => exact popFrame_of_cons h ▸ ⟨hc, rfl⟩

theorem spares_takeChild (isFragment : Bool) : Spares (takeChild isFragment) := by
  have htake : Spares (popFrame >>= addChild isFragment) :=
    spares_popFrame.bind fun _ c hc => ⟨hc, rfl⟩
  unfold takeChild
  split
  · exact spares_addToBlock.bind fun _ => htake
  · exact htake

theorem piece_addToBlock (hc : c.discarding = false) (hmarkup : c.frame.template ≠ "") :
    ∃ k, (addToBlock c).2.frame.plan.template = some k ∧
      (addToBlock c).2.templates[k]? = some c.frame.template := by
  have hreference : (reference c).2.discarding = c.discarding ∧
      (reference c).2.frame.template = c.frame.template := by
    obtain ⟨_, _, _, h⟩ := reference_state c
    rw [h]
    exact ⟨rfl, rfl⟩
  obtain ⟨roots, heq⟩ := addToBlock_eq c
  rw [heq]
  rcases registerTemplate_cases (reference c).2 with ⟨-, hflag | hnone⟩ | ⟨k, pieces, hrun, -, hk, -⟩
  · rw [hreference.1, hc] at hflag
    cases hflag
  · exact absurd (hreference.2.symm.trans hnone) hmarkup
  · rw [hrun]
    exact ⟨k, rfl, hreference.2 ▸ hk⟩

theorem spares_runExits {exits : List Exit} (h : ∀ exit ∈ exits, exit.isOwn = true ∧ exit.isClosing = false) :
    Spares (runExits .none exits) := by
  refine related_runExits
    (R := fun c c' => c.discarding = true → c'.discarding = true ∧ c'.templates = c.templates)
    (fun c hc => ⟨hc, rfl⟩) (fun h h' hc => ⟨(h' (h hc).1).1, (h' (h hc).1).2.trans (h hc).2⟩) fun exit he => ?_
  obtain ⟨hown, hopen⟩ := h exit he
  cases exit with
  | reference value => exact (does_exitReference value).spares rfl
  | element cursor => exact spares_exitElement cursor
  | added => cases hown
  | _ => cases hopen

theorem isClosing_of_unwinds {exits : List Exit} {inner outer : Stacks} (h : Unwinds exits inner outer)
    (hlength : inner.saved.length ≤ outer.saved.length) :
    ∀ exit ∈ exits, exit.isOwn = true ∧ exit.isClosing = false := by
  induction exits generalizing inner with
  | nil => simp
  | cons exit exits ih =>
    obtain ⟨middle, hclose, hrest⟩ := h
    obtain ⟨hown, hlen⟩ := Exit.Closes.length_saved hclose
    have hle := Unwinds.length_saved_le hrest
    have hopen : exit.isClosing = false := by
      cases hclosing : exit.isClosing with
      | false => rfl
      | true =>
        rw [hclosing, Bool.toNat_true] at hlen
        omega
    exact List.forall_mem_cons.mpr ⟨⟨hown, hopen⟩, ih hrest (by omega)⟩

/-- What becomes of the markup of a child when the walk comes back from it to the node `v`. -/
structure ChildMarkup (depth : Nat) (c : Context) (v : Visited) (k : Nat) (child : Visited) : Prop where
  /-- The child is visited, and left, with what was decided for the children of the node. -/
  flag : (comeToChild (lowerNode .none depth) v k child c).discarding = c.discarding ∧
    (lowerNode .none depth (comeToChild (lowerNode .none depth) v k child c)).2.discarding = c.discarding
  /-- If markup is dropped, no piece is added when the child is taken over. -/
  dropped : c.discarding = true →
    (takeChild v.isFragment (lowerNode .none depth (comeToChild (lowerNode .none depth) v k child c)).2).2.templates =
      (lowerNode .none depth (comeToChild (lowerNode .none depth) v k child c)).2.templates
  /-- Otherwise a child that is a top node of the block has its markup as a piece. -/
  kept : c.discarding = false → v.isFragment = true →
    (lowerNode .none depth (comeToChild (lowerNode .none depth) v k child c)).2.frame.template ≠ "" →
    ∃ i, (visitedPlan depth v c k child).template = some i ∧
      (addToBlock (lowerNode .none depth (comeToChild (lowerNode .none depth) v k child c)).2).2.templates[i]? =
        some (lowerNode .none depth (comeToChild (lowerNode .none depth) v k child c)).2.frame.template

/-- How far a decision to drop markup reaches from a node that the walk has come to. -/
structure MarkupReach (depth : Nat) (c : Context) : Prop where
  /-- It reaches the children, unless a block is entered: then there is none, or that of a component. -/
  flag : let c' := beforeChildren (lowerNode .none depth) c
    c'.saved = c.saved ∧ c'.discarding = c.discarding ∨
      c.saved.length < c'.saved.length ∧ c'.discarding = c'.frame.node.any Visited.dropsOthers
  /-- It does not reach the elements inside expressions. -/
  nested : ∀ index r, (prepareText (approach c).2).1.roots[index]? = some r →
    (comeToRoot (lowerNode .none depth) (prepareText (approach c).2).1.roots index r
      (prepareText (approach c).2).2).discarding = false
  children : ∀ v k child, (beforeChildren (lowerNode .none depth) c).frame.node = some v →
    v.children[k]? = some child → ChildMarkup depth (beforeChildren (lowerNode .none depth) c) v k child
  /-- If no block is entered, the node adds no piece besides those of blocks inside expressions and below. -/
  own : c.discarding = true → (beforeChildren (lowerNode .none depth) c).saved = c.saved →
    (approach c).2.templates = c.templates ∧
      (beforeChildren (lowerNode .none depth) c).templates =
        (textStep (lowerNode .none depth) (approach c).2).2.templates ∧
      (lowerNode .none (depth + 1) c).2.templates =
        (childrenStep (lowerNode .none depth) (beforeChildren (lowerNode .none depth) c)).2.templates

theorem childMarkup (ho : o.collectErrors = true) (h : Arrives o t (depth + 1) c) {v child : Visited}
    {k : Nat} (hv : (beforeChildren (lowerNode .none depth) c).frame.node = some v)
    (hchild : v.children[k]? = some child) :
    ChildMarkup depth (beforeChildren (lowerNode .none depth) c) v k child := by
  obtain ⟨hvalid, hat⟩ := atChildren_of_node (arrived_of_arrives ho h) hv
  have hbalanced := balanced_lowerNode depth
  have hresumed := (hat.children hchild).2
  have ha := hat.arrived_child (arrived_of_arrives ho h) hvalid hchild
  have hcomes : (comeToChild (lowerNode .none depth) v k child
      (beforeChildren (lowerNode .none depth) c)).discarding =
      (beforeChildren (lowerNode .none depth) c).discarding := congrArg Stacks.discarding hresumed.kept
  have hgo := ((hbalanced.grows _).collecting ha.collecting).goesOn
  have hleaves := (congrArg Stacks.discarding (hbalanced.keeps _ hgo).1).trans hcomes
  refine ⟨⟨hcomes, hleaves⟩, fun hdrop => (spares_takeChild _ _ (hleaves.trans hdrop)).2, ?_⟩
  exact fun hkeep _ hmarkup => piece_addToBlock (hleaves.trans hkeep) hmarkup

theorem markupReach (ho : o.collectErrors = true) (h : Arrives o t (depth + 1) c) :
    MarkupReach depth c := by
  have harrived := arrived_of_arrives ho h
  refine ⟨flag_beforeChildren harrived.collecting depth, fun _ _ _ => rfl, fun v k child => childMarkup ho h, ?_⟩
  intro hdrop hsaved
  obtain ⟨c', hinside⟩ := exists_inside harrived.collecting harrived.node depth
  have htexts := fixed_textStep (balanced_lowerNode depth)
  have hc₁ := (nears_approach c).grows.collecting harrived.collecting
  have hc₂ := (htexts.grows _).collecting hc₁
  have hc₃ := (does_slotStep.grows (textStep (lowerNode .none depth) (approach c).2).2).collecting hc₂
  have happroach := unwinds_approach harrived.collecting
  have hslots := opens_slotStep.unwinds (textStep (lowerNode .none depth) (approach c).2).2 hc₃.goesOn
  rw [← htexts.kept _ hc₂.goesOn] at happroach
  have hunwinds : Unwinds _ (beforeChildren (lowerNode .none depth) c).stacks c.stacks :=
    hslots.append happroach
  have hexits := isClosing_of_unwinds hunwinds (Nat.le_of_eq (congrArg List.length hsaved))
  have hdrop' : c'.discarding = true := by
    have hchildren := fixed_childrenStep (balanced_lowerNode depth)
    have hkept := hchildren.kept (beforeChildren (lowerNode .none depth) c)
      (hinside.children ▸ hinside.collecting.goesOn)
    rw [hinside.children]
    refine (congrArg Stacks.discarding hkept).trans ?_
    rcases flag_beforeChildren harrived.collecting depth with ⟨-, hflag⟩ | ⟨hlt, -⟩
    · exact hflag.trans hdrop
    · rw [hsaved] at hlt
      exact absurd hlt (Nat.lt_irrefl _)
  refine ⟨does_approach.templates c rfl, does_slotStep.templates _ rfl, ?_⟩
  rw [hinside.exits, ← hinside.children]
  exact (spares_runExits hexits c' hdrop').2

/-- What is decided for the other children of a component, and what becomes of them. -/
structure DecidesOnOthers (depth : Nat) (tag : Tag) (children : List Node) (c : Context) : Prop where
  /-- The children are visited with the decision. -/
  decision : (beforeChildren (lowerNode .none depth) c).discarding = tag.dropsOthers children
  /-- The slots that were found say whether the other children are rendered. -/
  outcome : ∃ use objects, (lowerNode .none (depth + 1) c).2.frame.plan.operation =
      some (.component use none) ∧ (∀ g ∈ objects, g.isFixed = false) ∧
    use.slots = objects ++ tag.givenSlots children (foundSlots depth c) (innerBlock depth c)
  /-- What is not rendered is dropped, unless a template for the default slot only looks as if its presence
  depended on something. -/
  dropped : hasOthers children = true → tag.keepsOthers children (foundSlots depth c) = false →
    tag.dropsOthers children = true ∨ ∃ template d below, .element template below ∈ children ∧
      template.slotDirective? = some d ∧ isDefaultSlot d.arg = true ∧ template.looksConditional = true ∧
      template.isUnconditional = true
  /-- What is dropped is not rendered, if nothing is wrong with the children. -/
  agrees : Silent (beforeChildren (lowerNode .none depth) c)
      (childrenStep (lowerNode .none depth) (beforeChildren (lowerNode .none depth) c)).2 →
    tag.dropsOthers children = true → tag.keepsOthers children (foundSlots depth c) = false

theorem decidesOnOthers (ho : o.collectErrors = true) (h : Arrives o t (depth + 1) c)
    (hv : (beforeChildren (lowerNode .none depth) c).frame.node = some (.node path (.element tag children)))
    (ht : tag.isComponent = true) (hne : children ≠ []) : DecidesOnOthers depth tag children c := by
  have harrived := arrived_of_arrives ho h
  obtain ⟨c', hinside⟩ := exists_inside harrived.collecting harrived.node depth
  obtain ⟨-, -, -, -, hnode₂, -⟩ := comes_to_component harrived hv ht
  obtain ⟨hslots, use, scope, s, saved, hop, huse, hsaved, hobjects⟩ := leave_component ho h hinside hv ht hne
  refine ⟨discarding_slotStep hnode₂ ht hne, ⟨use, s.slots, hop, hobjects, ?_⟩,
    drops_of_not_kept ho h hv ht hslots, not_kept_of_drops ho h hv ht hslots⟩
  obtain ⟨_, hrun, -, hleft, -⟩ := exitComponentSlots_of_saved hsaved (tag.directive? "slot")
    ((tag.directive? "slot").bind Directive.exp) ((children.find? fun c => !isSlotChild c).map Node.loc) scope
  rw [huse, hrun, slots_setComponentSlots, foundSlots, innerBlock, ← hinside.children, hleft]

/-- The decision that the markup of the other children of a component is dropped agrees with the outcome if
nothing is wrong, and reaches as far as no block is entered inside of the component. -/
theorem dropped_children_markup {o : LoweringOptions} (ho : o.collectErrors = true) {t : Template}
    {depth : Nat} {c : Context} (h : Arrives o t (depth + 1) c) :
    MarkupReach depth c ∧ ∀ path tag children, (beforeChildren (lowerNode .none depth) c).frame.node =
      some (.node path (.element tag children)) → tag.isComponent = true → children ≠ [] →
      DecidesOnOthers depth tag children c :=
  ⟨markupReach ho h, fun _ _ _ => decidesOnOthers ho h⟩

/-- A component with a template for its default slot drops a text beside it. -/
theorem dropped_children_markup_of_text :
    let template : Node := .element ⟨"template", .template,
      [.attribute ⟨"v-slot", some "default", .stub, none, .stub⟩], false, .stub⟩ [.text "1" .stub]
    let tag : Tag := ⟨"Comp", .component, [], false, .stub⟩
    let children := [template, .text "2" .stub]
    let o : LoweringOptions := ⟨true, fun _ => false⟩
    let t : Template := ⟨"", [.element tag children], .stub⟩
    let c := comeToChild (lowerNode .none 11) (.root t) 0 (.node [0] (.element tag children))
      (beforeChildren (lowerNode .none 11) (Context.ofTemplate o t))
    Arrives o t 11 c ∧ tag.dropsOthers children = true ∧ (t.lower o .none).templates = ["1"] ∧
      MarkupReach 10 c ∧ DecidesOnOthers 10 tag children c := by
  intro template tag children o t c
  obtain ⟨harrives, hstays⟩ := arrives_top (o := o) (t := t) rfl 10 rfl (n := .element tag children) rfl
  have hnode := hstays (by decide +kernel)
  have hpieces : (t.lower o .none).templates = ["1"] := by decide +kernel
  have hmarkup : ∀ c', Arrives o t 11 c' → (beforeChildren (lowerNode .none 10) c').frame.node =
      some (.node [0] (.element tag children)) → MarkupReach 10 c' ∧ DecidesOnOthers 10 tag children c' := by
    intro c' harrives hnode
    obtain ⟨hreach, hdecides⟩ := dropped_children_markup (o := o) rfl harrives
    exact ⟨hreach, hdecides _ _ _ hnode rfl (List.cons_ne_nil _ _)⟩
  exact ⟨harrives, by decide +kernel, hpieces, hmarkup c harrives hnode⟩

/-- But the markup of an element with a condition is kept there, although it is not rendered. -/
theorem dropped_branch_markup :
    let place := fun offset => (⟨⟨offset, 1, offset + 1⟩, ⟨offset, 1, offset + 1⟩, ""⟩ : Location)
    let template : Node := .element ⟨"template", .template,
      [.attribute ⟨"v-slot", some "default", .stub, none, .stub⟩], false, place 1⟩ [.text "1" .stub]
    let branch : Node := .element ⟨"div", .element,
      [.attribute ⟨"v-if", none, .stub, some ⟨"a", false, .stub⟩, .stub⟩], false, place 2⟩ [.text "x" .stub]
    let tag : Tag := ⟨"Comp", .component, [], false, .stub⟩
    let t : Template := ⟨"", [.element tag [template, branch]], .stub⟩
    let c := t.lower ⟨true, fun _ => false⟩ .none
    tag.dropsOthers [template, branch] = true ∧ c.templates = ["1", "<div>x</div>"] ∧
      c.errors.map Diagnostic.code = [.extraneousDefaultSlotChildren] ∧
      c.frame.plan.children.map (fun n => n.operation.map fun
        | .component use _ => (use.slots.flatMap SlotGroup.bodies).map fun body => body.block.loc
        | _ => []) = [some [place 1]] := by
  decide +kernel

end Lower

end JsxTemplate
