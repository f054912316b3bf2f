import Mathlib.Data.List.Chain
import Mathlib.Data.List.Nodup
import JsxTemplate.Proofs.Lowering.Slots

/-!
# The names of slots

The slots of a component are found one after the other: each template for a slot adds its own while the
component is open, the other children add one when it is left, and an object of slots was put before them.
Whatever mistakes are reported, no two slots have the same known name, and slots of known names that follow
each other stand in one group (`SlotGroup.Distinct`).
-/

namespace JsxTemplate

variable {slots slots' : List SlotGroup}

namespace SlotGroup

variable {group : SlotGroup} {body : SlotBody}

def names : SlotGroup → List String
  | .fixed slots => slots.map NamedSlot.name
  | _ => []

/-- Whether no two slots have the same known name, and no two groups of known names follow each other. -/
structure Distinct (slots : List SlotGroup) : Prop where
  nodup : (slots.flatMap names).Nodup
  apart : slots.IsChain fun a b => (a.isFixed && b.isFixed) = false

theorem names_of_other (h : group.isFixed = false) : group.names = [] := by
  cases group with
  | fixed => cases h
  | _ => rfl

theorem hasSlot_iff {slots : List SlotGroup} {name : String} :
    hasSlot slots name = true ↔ name ∈ slots.flatMap names := by
  rw [hasSlot, List.any_eq_true, List.mem_flatMap]
  refine exists_congr fun group => and_congr_right fun _ => ?_
  cases group <;> simp [names]

/-- The name of a slot, if it is known. -/
def knownName : Option Expression → Option String
  | none => some "default"
  | some name => if name.isStatic then some name.content else none

theorem names_addNamed (slots : List SlotGroup) (slot : NamedSlot) :
    (addNamed slots slot).flatMap names = slots.flatMap names ++ [slot.name] := by
  unfold addNamed
  split
  · next named hlast =>
    obtain ⟨groups, rfl⟩ := List.getLast?_eq_some_iff.mp hlast
    simp [names]
  · simp [names]

theorem names_add (slots : List SlotGroup) (name : Option Expression) (body : SlotBody) :
    (add slots name body).flatMap names = slots.flatMap names ++ (knownName name).toList := by
  cases name with
  | none => exact names_addNamed slots _
  | some name =>
    rw [add, knownName]
    split
    · exact names_addNamed slots _
    · simp [names]

theorem names_attach? {otherwise : DynamicSlot} (h : attach? slots otherwise = some slots') :
    slots'.flatMap names = slots.flatMap names := by
  unfold attach? at h
  split at h
  · next hlast =>
    obtain ⟨groups, rfl⟩ := List.getLast?_eq_some_iff.mp hlast
    obtain rfl := Option.some.inj h
    simp [names]
  · cases h

theorem names_addTemplate {slot : Directive} {condition otherwise loop : Option Directive}
    {head : Option LoopHead}
    (h : addTemplate slots slot body condition otherwise loop head = .ok slots') :
    slots'.flatMap names = slots.flatMap names ++
      if condition.isNone && otherwise.isNone && loop.isNone then (knownName slot.arg).toList else [] := by
  unfold addTemplate at h
  dsimp only at h
  split at h
  · cases h
    simp [names]
  · split at h
    · next hattach =>
      cases h
      simp [names_attach? hattach]
    · cases h
  · split at h
    · cases h
      simp [names]
    · cases h
      simp
  · change (if (knownName slot.arg).any (hasSlot slots) = true then _ else _) = _ at h
    rw [ite_eq_iff] at h
    obtain ⟨-, h⟩ | ⟨-, h⟩ := h
    · cases h
    · cases h
      exact names_add slots slot.arg body

namespace Distinct

variable {slots slots' : List SlotGroup}

theorem nil : Distinct [] := ⟨.nil, .nil⟩

theorem prepend (h : Distinct slots) {others : List SlotGroup} (hothers : ∀ g ∈ others, g.isFixed = false) :
    Distinct (others ++ slots) := by
  have hnames : others.flatMap names = [] :=
    List.flatMap_eq_nil_iff.mpr fun g hg => names_of_other (hothers g hg)
  refine ⟨by rw [List.flatMap_append, hnames]; exact h.nodup, List.isChain_append.mpr ⟨?_, h.apart, ?_⟩⟩
  · induction others with
    | nil => exact .nil
    | cons g others ih =>
      have hrest := ih (fun x hx => hothers x (List.mem_cons_of_mem _ hx))
        (List.append_eq_nil_iff.mp hnames).2
      exact .cons hrest fun _ _ => by rw [hothers g List.mem_cons_self]; rfl
  · intro g hg _ _
    rw [hothers g (List.mem_of_mem_getLast? hg)]
    rfl

theorem concat_other (h : Distinct slots) (hgroup : group.isFixed = false) :
    Distinct (slots ++ [group]) := by
  refine ⟨?_, List.isChain_append.mpr ⟨h.apart, .singleton group, ?_⟩⟩
  · simpa [names_of_other hgroup] using h.nodup
  · rintro g - _ ⟨⟩
    rw [hgroup, Bool.and_false]

theorem init (h : Distinct (slots ++ [group])) : Distinct slots :=
  ⟨(List.nodup_append.mp (List.flatMap_append ▸ h.nodup)).1, (List.isChain_append.mp h.apart).1⟩

theorem addNamed (h : Distinct slots) {slot : NamedSlot} (hnew : hasSlot slots slot.name = false) :
    Distinct (addNamed slots slot) := by
  have hnodup : (slots.flatMap names ++ [slot.name]).Nodup := by
    refine List.nodup_append.mpr ⟨h.nodup, List.nodup_singleton _, ?_⟩
    rintro name hname _ hslot rfl
    rw [List.mem_singleton.mp hslot] at hname
    rw [hasSlot_iff.mpr hname] at hnew
    cases hnew
  refine ⟨names_addNamed slots slot ▸ hnodup, ?_⟩
  unfold SlotGroup.addNamed
  split
  · next named hlast =>
    obtain ⟨groups, rfl⟩ := List.getLast?_eq_some_iff.mp hlast
    rw [List.dropLast_concat]
    refine List.isChain_append.mpr ⟨h.init.apart, .singleton _, ?_⟩
    rintro g hg _ ⟨⟩
    exact (List.isChain_append.mp h.apart).2.2 g hg (.fixed named) rfl
  · next hother =>
    refine List.isChain_append.mpr ⟨h.apart, .singleton _, ?_⟩
    rintro g hg _ ⟨⟩
    cases g with
    | fixed named => exact absurd hg (hother named)
    | _ => rfl

theorem add (h : Distinct slots) {name : Option Expression}
    (hnew : (knownName name).any (hasSlot slots) = false) : Distinct (add slots name body) := by
  unfold SlotGroup.add
  split
  · exact h.addNamed hnew
  · split
    · next hstatic =>
      rw [knownName, if_pos hstatic] at hnew
      exact h.addNamed hnew
    · exact h.concat_other rfl

theorem attach? (h : Distinct slots) {otherwise : DynamicSlot}
    (hattach : SlotGroup.attach? slots otherwise = some slots') : Distinct slots' := by
  unfold SlotGroup.attach? at hattach
  split at hattach
  · next hlast =>
    obtain ⟨groups, rfl⟩ := List.getLast?_eq_some_iff.mp hlast
    obtain rfl := Option.some.inj hattach
    rw [List.dropLast_concat]
    exact h.init.concat_other rfl
  · cases hattach

theorem addTemplate (h : Distinct slots) {slot : Directive}
    {condition otherwise loop : Option Directive} {head : Option LoopHead}
    (hadd : SlotGroup.addTemplate slots slot body condition otherwise loop head = .ok slots') :
    Distinct slots' := by
  unfold SlotGroup.addTemplate at hadd
  dsimp only at hadd
  split at hadd
  · cases hadd
    exact h.concat_other rfl
  · split at hadd
    · next hattach =>
      cases hadd
      exact h.attach? hattach
    · cases hadd
  · split at hadd
    · cases hadd
      exact h.concat_other rfl
    · cases hadd
      exact h
  · change (if (knownName slot.arg).any (hasSlot slots) = true then _ else _) = _ at hadd
    cases hknown : (knownName slot.arg).any (hasSlot slots) with
    | true =>
      rw [hknown] at hadd
      cases hadd
    | false =>
      rw [hknown] at hadd
      cases hadd
      exact h.add hknown

end Distinct

end SlotGroup

namespace Lower

variable {c : Context} {v : Visited}

/-! ## What a child adds -/

/-- What the visit of a node may do to the slots of the node around it: the slot of a template is added. -/
inductive SlotsAfter (v : Visited) (slots : List SlotGroup) : List SlotGroup → Prop where
  | same : SlotsAfter v slots slots
  | template {tag : Tag} {d : Directive} {body : SlotBody} {head : Option LoopHead}
      {slots' : List SlotGroup} (htag : v.tag? = some tag) (hd : tag.slotDirective? = some d)
      (hadd : SlotGroup.addTemplate slots d body (tag.directive? "if") tag.slotOtherwise?
        (tag.directive? "for") head = .ok slots') : SlotsAfter v slots slots'

theorem SlotsAfter.distinct (h : SlotsAfter v slots slots') (hslots : SlotGroup.Distinct slots) :
    SlotGroup.Distinct slots' := by
  cases h with
  | same => exact hslots
  | template _ _ hadd => exact hslots.addTemplate hadd

theorem SlotsAfter.of_untagged (h : SlotsAfter v slots slots') (hv : v.tag? = none) :
    slots' = slots := by
  cases h with
  | same => rfl
  | template htag =>
    rw [hv] at htag
    cases htag

section

variable {c : Context} {p : Frame} {ps : List Frame} (houter : c.outer = p :: ps)

include houter

theorem slots_runExit {exit : Exit} (hown : exit.isOwn = true) (hother : isTemplateSlotExit exit = false) :
    ∃ p', (runExit .none exit c).2.outer = p' :: ps ∧ p'.slots = p.slots := by
  have hleave : (exitBlock c).2.outer = p :: ps := (exitBlock_outer c).trans houter
  cases exit with
  | branch id condition => exact ⟨p, hleave, rfl⟩
  | otherwise condition =>
    have hrun := congrArg (fun r => (Prod.snd r).outer) (modifyParent_of_cons hleave
      (Frame.attachBranch fun id => Otherwise.ofBranch id condition (exitBlock c).1
        (c.frame.once || condition.any Expression.isConstant)))
    exact ⟨_, hrun, rfl⟩
  | templateSlot d condition otherwise loop head scope => cases hother
  | added => cases hown
  | _ => exact ⟨p, (outer_runExit rfl rfl rfl c).trans houter, rfl⟩

theorem slots_runExits {exits : List Exit}
    (h : ∀ exit ∈ exits, exit.isOwn = true ∧ isTemplateSlotExit exit = false) :
    ∃ p', (runExits .none exits c).2.outer = p' :: ps ∧ p'.slots = p.slots :=
  related_runExits (R := fun c c' => (∃ p', c.outer = p' :: ps ∧ p'.slots = p.slots) →
      ∃ p', c'.outer = p' :: ps ∧ p'.slots = p.slots) (fun _ => id) (fun h h' => h' ∘ h)
    (fun exit he _ ⟨_, houter', hslots⟩ => hslots ▸ slots_runExit houter' (h exit he).1 (h exit he).2) c
    ⟨p, houter, rfl⟩

theorem slots_exitTemplateSlot (d : Directive) (condition otherwise loop : Option Directive)
    (head : Option LoopHead) (scope : Nat) :
    ∃ p', (exitTemplateSlot d condition otherwise loop head scope c).2.outer = p' :: ps ∧
      (p'.slots = p.slots ∨ SlotGroup.addTemplate p.slots d ⟨(exitBlock c).1, d.exp⟩ condition otherwise
        loop head = .ok p'.slots) := by
  have hpop : (popScope scope (exitBlock c).2).2.outer = p :: ps := (exitBlock_outer c).trans houter
  have hrun : exitTemplateSlot d condition otherwise loop head scope c =
      setTemplateSlot d condition otherwise loop head (exitBlock c).1
        (popScope scope (exitBlock c).2).2 := rfl
  rw [hrun]
  rcases setTemplateSlot_cases d condition otherwise loop head (exitBlock c).1
    (popScope scope (exitBlock c).2).2 with hset | ⟨mistake, hset⟩ | ⟨p', ps', slots, houter', hadd, hset⟩
  · exact ⟨p, by rw [hset]; exact hpop, Or.inl rfl⟩
  · exact ⟨p, by rw [hset]; exact hpop, Or.inl rfl⟩
  · obtain ⟨rfl, rfl⟩ := List.cons.inj (hpop.symm.trans houter')
    exact ⟨_, by rw [hset], Or.inr hadd⟩

end

theorem slotStep_templateSlot {exit : Exit} (he : exit ∈ (slotStep c).1)
    (hslot : isTemplateSlotExit exit = true) :
    ∃ v tag d head scope, c.frame.node = some v ∧ v.tag? = some tag ∧ tag.slotDirective? = some d ∧
      exit = .templateSlot d (tag.directive? "if") tag.slotOtherwise? (tag.directive? "for") head scope := by
  by_cases hother : ∀ v, c.frame.node = some v → v.slotDirective? = none
  · rw [slotStep_exits_of_other hother exit he] at hslot
    cases hslot
  · simp only [not_forall] at hother
    obtain ⟨v, hv, hd⟩ := hother
    obtain ⟨d, hd⟩ := Option.ne_none_iff_exists'.mp hd
    obtain ⟨tag, htag, hd⟩ := Option.bind_eq_some_iff.mp hd
    obtain ⟨path, children, rfl⟩ := exists_of_tag htag
    by_cases hparent : ((c.outer.head?.bind Frame.node).bind Visited.tag?).any Tag.isComponent = true
    · obtain ⟨head, scope, hexits, -⟩ := slotStep_of_template hv hd hparent
      rw [hexits, List.mem_singleton] at he
      exact ⟨_, tag, d, head, scope, hv, rfl, hd, he⟩
    · have hinside : isInComponent c = (false, c) := by rw [← eq_false_of_ne_true hparent]; rfl
      obtain ⟨htype, hd⟩ := Option.ite_none_right_eq_some.mp hd
      have hnot : tag.isComponent = false := by rw [Tag.isComponent, beq_iff_eq.mp htype]; rfl
      rw [slotStep, run_bind, node_of_some hv] at he
      simp [hnot, hd, run_bind, hinside] at he

theorem slotsAfter_runExits (c₂ : Context) {p : Frame} {ps : List Frame} (houter : c.outer = p :: ps)
    {rest : List Exit} (hrest : ∀ exit ∈ rest, exit.isOwn = true ∧ isTemplateSlotExit exit = false) :
    ∃ p', (runExits .none ((slotStep c₂).1.reverse ++ rest) c).2.outer = p' :: ps ∧
      (p'.slots = p.slots ∨ ∃ v, c₂.frame.node = some v ∧ SlotsAfter v p.slots p'.slots) := by
  obtain ⟨hlength, -⟩ := leaves_slotStep c₂
  have hown := leaves_slotStep.own (by decide) c₂
  have htemplate := fun exit => @slotStep_templateSlot c₂ exit
  generalize (slotStep c₂).1 = exits at hlength hown htemplate ⊢
  rcases exits with _ | ⟨exit, _ | ⟨exit', exits⟩⟩
  · obtain ⟨p', houter', hslots⟩ := slots_runExits houter hrest
    exact ⟨p', houter', Or.inl hslots⟩
  · rw [List.reverse_singleton, List.singleton_append]
    cases hslot : isTemplateSlotExit exit with
    | false =>
      have hall := List.forall_mem_cons.mpr ⟨⟨hown exit List.mem_cons_self, hslot⟩, hrest⟩
      obtain ⟨p', houter', hslots⟩ := slots_runExits houter hall
      exact ⟨p', houter', Or.inl hslots⟩
    | true =>
      obtain ⟨v, tag, d, head, scope, hv, htag, hd, rfl⟩ := htemplate exit List.mem_cons_self hslot
      rw [runExits_cons]
      split
      · exact ⟨p, houter, Or.inl rfl⟩
      · obtain ⟨p₁, houter₁, hadd⟩ := slots_exitTemplateSlot houter d (tag.directive? "if")
          tag.slotOtherwise? (tag.directive? "for") head scope
        obtain ⟨p₂, houter₂, hslots₂⟩ := slots_runExits houter₁ hrest
        refine ⟨p₂, houter₂, hslots₂ ▸ hadd.imp_right fun hadd => ?_⟩
        exact ⟨v, hv, .template htag hd hadd⟩
  · simp at hlength

theorem approach_templateSlot (c : Context) :
    ∀ exit ∈ (approach c).1, exit.isOwn = true ∧ isTemplateSlotExit exit = false := by
  intro exit he
  let c₁ := (onceStep c).2
  let c₂ := (conditionStep c₁).2
  let c₃ := (loopStep c₂).2
  have hexits : (approach c).1 = (elementStep (referenceStep c₃).2).1.reverse ++
      ((referenceStep c₃).1.reverse ++ ((loopStep c₂).1.reverse ++ (conditionStep c₁).1.reverse)) := rfl
  rw [hexits] at he
  simp only [List.mem_append, List.mem_reverse] at he
  rcases he with he | he | he | he
  · obtain rfl := List.mem_singleton.mp he
    exact ⟨rfl, rfl⟩
  · exact ⟨leaves_referenceStep.own (by decide) _ _ he,
      leaves_referenceStep.isTemplateSlotExit_eq (by decide) _ _ he⟩
  · exact ⟨leaves_loopStep.own (by decide) _ _ he, leaves_loopStep.isTemplateSlotExit_eq (by decide) _ _ he⟩
  · exact ⟨leaves_conditionStep.own (by decide) _ _ he,
      leaves_conditionStep.isTemplateSlotExit_eq (by decide) _ _ he⟩

theorem slotsAfter_lowerNode (depth : Nat) (hc : Collecting c) (hv : c.frame.node = some v) {p : Frame}
    {ps : List Frame} (houter : c.outer = p :: ps) :
    ∃ p', (lowerNode .none depth c).2.outer = p' :: ps ∧ SlotsAfter v p.slots p'.slots := by
  cases depth with
  | zero => exact ⟨p, houter, .same⟩
  | succ depth =>
    have hnode : c.frame.node.isSome = true := by rw [hv]; rfl
    obtain ⟨c', hinside⟩ := exists_inside hc hnode depth
    obtain ⟨p', houter', hslots⟩ := slotsAfter_runExits (textStep (lowerNode .none depth) (approach c).2).2
      (hinside.outer.trans houter) (approach_templateSlot c)
    refine ⟨p', hinside.exits ▸ houter', ?_⟩
    rcases hslots with hsame | ⟨v', hv', hafter⟩
    · exact hsame ▸ .same
    · -- An element that has been wrapped has no directives any more.
      have htexts := fixed_textStep (balanced_lowerNode depth)
      have hc₁ := (nears_approach c).grows.collecting hc
      have hgo := ((htexts.grows _).collecting hc₁).goesOn
      obtain ⟨v₁, hv₁, -, hkind⟩ := (nears_approach c).node v hv
      obtain rfl := Option.some.inj ((htexts.node _ hgo).symm.trans hv' |>.symm.trans hv₁)
      rcases hkind with rfl | ⟨_, _, _, -, rfl⟩
      · exact hafter
      · exact hafter.of_untagged rfl ▸ .same

theorem distinct_lowerChildren (depth index : Nat) (children : List Visited) (hc : Collecting c)
    (hslots : SlotGroup.Distinct c.frame.slots) :
    SlotGroup.Distinct (lowerChildren (lowerNode .none depth) true index children c).2.frame.slots := by
  induction children generalizing index c with
  | nil => exact hslots
  | cons child children ih =>
    have hbalanced := balanced_lowerNode depth
    have hc' := (grows_enterChild child index c).collecting hc
    obtain ⟨p', houter, hafter⟩ := slotsAfter_lowerNode depth hc' (v := child) rfl rfl
    rw [lowerChildren_collecting hbalanced hc]
    refine ih _ ((resumed_afterChild hbalanced hc true child index).grows.collecting hc) ?_
    rw [afterChild, (takeChild_of_fragment houter).1]
    exact hafter.distinct hslots

/-! ## What the component adds -/

section

variable {c : Context} {path : Path} {tag : Tag} {children : List Node}

theorem slotStep_objects (hv : c.frame.node = some (.node path (.element tag children)))
    (ht : tag.isComponent = true) (hslots : c.frame.slots = []) :
    (children = [] → ∀ g ∈ (slotStep c).2.frame.slots, g.isFixed = false) ∧
      (children ≠ [] → ∀ s ∈ (slotStep c).2.saved.head?, ∀ g ∈ s.slots, g.isFixed = false) := by
  obtain ⟨objects, ⟨-, hfixed⟩, hempty, hfull⟩ := slotStep_of_component hv ht
  refine ⟨fun hnone => ?_, fun hne s hs => ?_⟩
  · rw [hempty hnone, hslots]
    exact hfixed
  · obtain ⟨-, -, s', hsaved, heq⟩ := hfull hne
    rw [hsaved, List.head?_cons, Option.mem_some] at hs
    rwa [← hs, heq, hslots, List.nil_append]

theorem distinct_setComponentSlots (hframe : ∀ g ∈ c.frame.slots, g.isFixed = false)
    {slots : List SlotGroup} (hslots : SlotGroup.Distinct slots) (d : Option Directive)
    (pattern : Option Expression) (firstOther : Option Location) (block : Block) :
    SlotGroup.Distinct (setComponentSlots d pattern firstOther slots block c).2.frame.slots := by
  have hadd : ∀ added, SlotGroup.Distinct added → SlotGroup.Distinct (addSlots added c).2.frame.slots :=
    fun added h => h.prepend hframe
  rw [setComponentSlots_eq]
  split
  · have hnone := SlotGroup.Distinct.nil.prepend hframe
    rwa [List.append_nil] at hnone
  · next hmixed =>
    cases firstOther with
    | none => exact hadd slots hslots
    | some loc =>
      dsimp only
      split
      · exact hadd slots hslots
      · next hdefault =>
        refine hadd _ (hslots.add ?_)
        cases d with
        | none => exact eq_false_of_ne_true hdefault
        | some d =>
          obtain rfl : slots = [] := by simpa using hmixed
          cases SlotGroup.knownName ((some d).bind Directive.arg) <;> rfl

theorem distinct_exitComponentSlots {s : SavedBlock} {saved : List SavedBlock} (hs : c.saved = s :: saved)
    (hobjects : ∀ g ∈ s.slots, g.isFixed = false) (hslots : SlotGroup.Distinct c.frame.slots)
    (d : Option Directive) (pattern : Option Expression) (firstOther : Option Location) (scope : Nat) :
    SlotGroup.Distinct (exitComponentSlots d pattern firstOther scope c).2.frame.slots := by
  obtain ⟨c', hrun, -, hslots', -⟩ := exitComponentSlots_of_saved hs d pattern firstOther scope
  rw [hrun]
  exact distinct_setComponentSlots (hslots' ▸ hobjects) hslots d pattern firstOther _

end

/-- How the walk leaves a component with children: the slots that were found are given to it, after an object
of slots that was put aside. -/
theorem leave_component {o : LoweringOptions} (ho : o.collectErrors = true) {t : Template} {depth : Nat}
    {c c' : Context} (h : Arrives o t (depth + 1) c) (hinside : Inside depth c c') {path : Path} {tag : Tag}
    {children : List Node}
    (hv : (beforeChildren (lowerNode .none depth) c).frame.node = some (.node path (.element tag children)))
    (ht : tag.isComponent = true) (hne : children ≠ []) :
    (beforeChildren (lowerNode .none depth) c).frame.slots = [] ∧
      ∃ use scope s saved, (lowerNode .none (depth + 1) c).2.frame.plan.operation =
          some (.component use none) ∧
        use.slots = (exitComponentSlots (tag.directive? "slot") ((tag.directive? "slot").bind Directive.exp)
          ((children.find? fun c => !isSlotChild c).map Node.loc) scope c').2.frame.slots ∧
        c'.saved = s :: saved ∧ ∀ g ∈ s.slots, g.isFixed = false := by
  have harrived := arrived_of_arrives ho h
  obtain ⟨cursor, stored, hexits, hstored, hnode₂, hslots₂⟩ := comes_to_component harrived hv ht
  obtain ⟨_, -, -, hslots⟩ := slotStep_of_component hnode₂ ht
  obtain ⟨⟨scope, hexit⟩, hslots₃, s, hsaved, -⟩ := hslots hne
  have hnode' : c'.frame.node = some (.node path (.element tag children)) := hinside.node.trans hv
  have hgrows := (does_runExit (show (Exit.componentSlots (tag.directive? "slot")
    ((tag.directive? "slot").bind Directive.exp)
    ((children.find? fun c => !isSlotChild c).map Node.loc) scope).isOwn = true from rfl)).grows c'
  have hresult := hinside.exits
  rw [hexits, hexit, List.reverse_singleton, List.singleton_append, runExits_cons,
    if_neg (by simp [hinside.collecting.goesOn])] at hresult
  obtain ⟨use, hop, huse⟩ := operation_of_component ((hushing_runExit rfl rfl c').node.trans hnode') ht
    (hgrows.collecting hinside.collecting).goesOn cursor hstored
  exact ⟨hslots₃, use, scope, s, _, by rw [hresult]; exact hop, huse, hinside.saved.trans hsaved,
    (slotStep_objects hnode₂ ht hslots₂).2 hne s (by rw [hsaved]; rfl)⟩

/-- Whatever mistakes are reported, no two slots of a component have the same known name, and no two groups
of slots of known names follow each other. -/
theorem component_slots_distinct {o : LoweringOptions} (ho : o.collectErrors = true) {t : Template}
    {depth : Nat} {c : Context} (h : Arrives o t (depth + 1) c) {path : Path} {tag : Tag}
    {children : List Node}
    (hv : (beforeChildren (lowerNode .none depth) c).frame.node = some (.node path (.element tag children)))
    (ht : tag.isComponent = true) :
    ∃ use, (lowerNode .none (depth + 1) c).2.frame.plan.operation = some (.component use none) ∧
      SlotGroup.Distinct use.slots := by
  have harrived := arrived_of_arrives ho h
  obtain ⟨c', hinside⟩ := exists_inside harrived.collecting harrived.node depth
  obtain ⟨_, -, hat⟩ := atChildren harrived
  have hchildren : c' = (lowerChildren (lowerNode .none depth) true 0
      (Visited.node path (.element tag children)).children (beforeChildren (lowerNode .none depth) c)).2 := by
    rw [hinside.children, childrenStep_of_fragment _ hv (isFragment_of_component ht)]
  by_cases hnone : children = []
  · subst hnone
    obtain ⟨cursor, stored, hexits, hstored, hnode₂, hslots₂⟩ := comes_to_component harrived hv ht
    obtain ⟨_, -, hempty, -⟩ := slotStep_of_component hnode₂ ht
    obtain ⟨use, hop, huse⟩ := operation_of_component (hinside.node.trans hv) ht
      hinside.collecting.goesOn cursor hstored
    have hobjects := SlotGroup.Distinct.nil.prepend ((slotStep_objects hnode₂ ht hslots₂).1 rfl)
    rw [List.append_nil] at hobjects
    refine ⟨use, by rw [hinside.exits, hexits, hempty rfl]; exact hop, ?_⟩
    rw [huse, hchildren]
    exact hobjects
  · obtain ⟨hslots, use, scope, s, saved, hop, huse, hsaved, hobjects⟩ :=
      leave_component ho h hinside hv ht hnone
    have hdistinct : SlotGroup.Distinct c'.frame.slots := by
      rw [hchildren]
      exact distinct_lowerChildren depth 0 _ hat.collecting (hslots ▸ .nil)
    exact ⟨use, hop, huse ▸ distinct_exitComponentSlots hsaved hobjects hdistinct _ _ _ _⟩

/-- Of two templates for the same slot the second one is refused, and of a slot with a condition between them
nothing is lost. -/
theorem component_slots_distinct_of_same :
    let template := fun name value slot => Node.element ⟨"template", .template,
      [.attribute ⟨name, none, .stub, value, .stub⟩, .attribute ⟨"v-slot", some slot, .stub, none, .stub⟩],
      false, .stub⟩ [.text slot .stub]
    let tag : Tag := ⟨"Comp", .component, [], false, .stub⟩
    let children := [template "a" none "x", template "v-if" (some ⟨"b", false, .stub⟩) "x",
      template "a" none "x", .text "2" .stub]
    let o : LoweringOptions := ⟨true, fun _ => false⟩
    let t : Template := ⟨"", [.element tag children], .stub⟩
    let c := comeToChild (lowerNode .none 11) (.root t) 0 (.node [0] (.element tag children))
      (beforeChildren (lowerNode .none 11) (Context.ofTemplate o t))
    Arrives o t 11 c ∧
      (beforeChildren (lowerNode .none 10) c).frame.node = some (.node [0] (.element tag children)) ∧
      (lowerNode .none 11 c).2.errors.map Diagnostic.code = [.duplicateSlotNames] ∧
      ∃ use, (lowerNode .none 11 c).2.frame.plan.operation = some (.component use none) ∧
        SlotGroup.Distinct use.slots := by
  intro template tag children o t c
  obtain ⟨harrives, hstays⟩ := arrives_top (o := o) (t := t) rfl 10 rfl (n := .element tag children) rfl
  have hnode := hstays (by decide +kernel)
  have herrors : (lowerNode .none 11 c).2.errors.map Diagnostic.code = [.duplicateSlotNames] := by
    decide +kernel
  have hdistinct : ∀ c', Arrives o t 11 c' → (beforeChildren (lowerNode .none 10) c').frame.node =
      some (.node [0] (.element tag children)) →
      ∃ use, (lowerNode .none 11 c').2.frame.plan.operation = some (.component use none) ∧
        SlotGroup.Distinct use.slots :=
    fun c' harrives hnode => component_slots_distinct rfl harrives hnode rfl
  exact ⟨harrives, hnode, herrors, hdistinct c harrives hnode⟩

end Lower

end JsxTemplate
