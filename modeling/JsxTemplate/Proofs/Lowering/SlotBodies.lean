import JsxTemplate.Lowering.Slot
import Mathlib.Data.List.Basic
import Mathlib.Data.List.Flatten

/-!
# What is rendered in slots

The slots of a component are groups in which conditions are nested. Read from left to right, they hold what
is rendered in them (`SlotGroup.bodies`). The template for a slot adds its own body at the end. But if it is
to join a condition that the template before it has closed, it takes the place of that one
(`SlotGroup.bodies_addTemplate`), so of templates in a row not all bodies are kept (`keptBodies`).
-/

namespace JsxTemplate

variable {templates : List (Tag × SlotBody)} {slots slots' : List SlotGroup}

namespace DynamicSlot

def bodies : DynamicSlot → List SlotBody
  | .single _ body => [body]
  | .loop _ body _ => [body]
  | .conditional _ positive none => positive.bodies
  | .conditional _ positive (some negative) => positive.bodies ++ negative.bodies

def isClosed : DynamicSlot → Bool
  | .conditional _ _ (some (.conditional c p n)) => isClosed (.conditional c p n)
  | .conditional _ _ (some _) => true
  | _ => false

theorem bodies_ne_nil (slot : DynamicSlot) : slot.bodies ≠ [] := by
  fun_induction bodies slot with
  | case1 => simp
  | case2 => simp
  | case3 _ _ ih => exact ih
  | case4 _ _ _ ih => exact fun h => ih (List.append_eq_nil_iff.mp h).1

theorem bodies_attach (otherwise : DynamicSlot) (c : Expression) (positive : DynamicSlot)
    (negative : Option DynamicSlot) :
    (attach otherwise (.conditional c positive negative)).bodies =
      (if isClosed (.conditional c positive negative) then
        (bodies (.conditional c positive negative)).dropLast
      else bodies (.conditional c positive negative)) ++ otherwise.bodies := by
  match negative with
  | none => rfl
  | some (.single _ body) | some (.loop _ body _) =>
    simp only [attach, bodies, isClosed, if_true, List.dropLast_concat]
  | some (.conditional c' p' n') =>
    have ih := bodies_attach otherwise c' p' n'
    have hne := bodies_ne_nil (.conditional c' p' n')
    simp only [attach, bodies, isClosed, ih, List.dropLast_append_of_ne_nil hne]
    split <;> simp

theorem isClosed_attach (otherwise : DynamicSlot) (c : Expression) (positive : DynamicSlot)
    (negative : Option DynamicSlot) :
    (attach otherwise (.conditional c positive negative)).isClosed =
      isClosed (.conditional c positive (some otherwise)) := by
  match negative with
  | none => rfl
  | some (.single _ _) | some (.loop _ _ _) => rfl
  | some (.conditional c' p' n') =>
    have ih := isClosed_attach otherwise c' p' n'
    have hkind : ∃ n'', attach otherwise (.conditional c' p' n') = .conditional c' p' n'' := by
      match n' with
      | none => exact ⟨_, rfl⟩
      | some (.single _ _) | some (.loop _ _ _) | some (.conditional _ _ _) => exact ⟨_, rfl⟩
    obtain ⟨n'', hkind⟩ := hkind
    rw [hkind] at ih
    simp only [attach, hkind, isClosed, ih]
    cases otherwise <;> rfl

end DynamicSlot

namespace SlotGroup

def bodies : SlotGroup → List SlotBody
  | .fixed slots => slots.map NamedSlot.body
  | .dynamic slot => slot.bodies
  | .object _ => []

def isClosed : SlotGroup → Bool
  | .dynamic slot => slot.isClosed
  | _ => false

def isFixed : SlotGroup → Bool
  | .fixed _ => true
  | _ => false

theorem bodies_addNamed (slots : List SlotGroup) (slot : NamedSlot) :
    (addNamed slots slot).flatMap bodies = slots.flatMap bodies ++ [slot.body] ∧
      (addNamed slots slot).getLast?.any isClosed = false := by
  unfold addNamed
  split
  · next named hlast =>
    constructor
    · conv_rhs => rw [← List.dropLast_append_getLast? _ hlast]
      simp [bodies]
    · simp [isClosed]
  · simp [bodies, isClosed]

theorem bodies_add (slots : List SlotGroup) (name : Option Expression) (body : SlotBody) :
    (add slots name body).flatMap bodies = slots.flatMap bodies ++ [body] ∧
      (add slots name body).getLast?.any isClosed = false := by
  unfold add
  split
  · exact bodies_addNamed _ _
  · split
    · exact bodies_addNamed _ _
    · simp [bodies, DynamicSlot.bodies, isClosed, DynamicSlot.isClosed]

theorem bodies_attach? {otherwise : DynamicSlot} (h : attach? slots otherwise = some slots') :
    slots'.flatMap bodies =
        (if slots.getLast?.any isClosed then (slots.flatMap bodies).dropLast else slots.flatMap bodies) ++
          otherwise.bodies ∧
      ∃ c positive, slots'.getLast?.any isClosed =
        DynamicSlot.isClosed (.conditional c positive (some otherwise)) := by
  unfold attach? at h
  split at h
  · next c positive negative hlast =>
    obtain rfl := Option.some.inj h
    constructor
    · rw [hlast, Option.any_some, isClosed, ← List.dropLast_append_getLast? _ hlast]
      have hne := DynamicSlot.bodies_ne_nil (.conditional c positive negative)
      simp only [List.dropLast_concat, List.flatMap_append, List.flatMap_singleton, bodies,
        DynamicSlot.bodies_attach, List.dropLast_append_of_ne_nil hne]
      split <;> simp
    · refine ⟨c, positive, ?_⟩
      rw [List.getLast?_concat, Option.any_some, isClosed, DynamicSlot.isClosed_attach]
  · cases h

end SlotGroup

namespace Tag

/-- The directive that makes an element the template for a slot. -/
def slotDirective? (t : Tag) : Option Directive :=
  if t.type == .template then t.directive? "slot" else none

/-- The directive by which the template for a slot joins the condition of the template before it. -/
def slotOtherwise? (t : Tag) : Option Directive := (t.directive? "else-if").or (t.directive? "else")

/-- Whether the template for a slot is to join a condition. -/
def joinsSlot (t : Tag) : Bool := (t.directive? "if").isNone && t.slotOtherwise?.isSome

/-- Whether the template for a slot is the last one of a condition. -/
def closesSlot (t : Tag) : Bool :=
  t.joinsSlot && !t.slotOtherwise?.any fun e => e.exp.isSome && e.name == "else-if"

end Tag

/-- What the slots of templates render. The body of a template that closes a condition is dropped if the
next template is to join the condition. -/
def keptBodies : List (Tag × SlotBody) → List SlotBody
  | [] => []
  | [(_, body)] => [body]
  | (tag, body) :: (tag', body') :: rest =>
    if tag.closesSlot && tag'.joinsSlot then keptBodies ((tag', body') :: rest)
    else body :: keptBodies ((tag', body') :: rest)

theorem keptBodies_of_isChain
    (h : templates.IsChain fun a b => (a.1.closesSlot && b.1.joinsSlot) = false) :
    keptBodies templates = templates.map Prod.snd := by
  fun_induction keptBodies templates with
  | case1 => rfl
  | case2 => rfl
  | case3 _ _ _ _ _ hdropped =>
    rw [(List.isChain_cons_cons.mp h).1] at hdropped
    cases hdropped
  | case4 tag body _ _ _ _ ih => exact congrArg (body :: ·) (ih (List.isChain_cons_cons.mp h).2)

theorem keptBodies_ne_nil (h : templates ≠ []) : keptBodies templates ≠ [] := by
  fun_induction keptBodies templates with
  | case1 => exact absurd rfl h
  | case2 => simp
  | case3 _ _ _ _ _ _ ih => exact ih (by simp)
  | case4 => simp

theorem keptBodies_concat (templates : List (Tag × SlotBody)) (tag : Tag) (body : SlotBody) :
    keptBodies (templates ++ [(tag, body)]) =
      (if tag.joinsSlot && templates.getLast?.any (fun t => t.1.closesSlot) then
        (keptBodies templates).dropLast else keptBodies templates) ++ [body] := by
  fun_induction keptBodies templates with
  | case1 => simp [keptBodies]
  | case2 tag' body' =>
    simp only [List.singleton_append, keptBodies, List.getLast?_singleton, Option.any_some, Bool.and_comm]
    split <;> rfl
  | case3 tag' body' tag'' body'' rest hdropped ih =>
    simp only [List.cons_append, keptBodies, hdropped, if_true, List.getLast?_cons_cons] at ih ⊢
    exact ih
  | case4 tag' body' tag'' body'' rest hkept ih =>
    have hne := keptBodies_ne_nil (List.cons_ne_nil (tag'', body'') rest)
    simp only [List.cons_append, keptBodies, hkept, if_false, List.getLast?_cons_cons,
      List.dropLast_cons_of_ne_nil hne, Bool.false_eq_true] at ih ⊢
    rw [ih]
    split <;> rfl

namespace SlotGroup

theorem bodies_addTemplate {tag : Tag} {d : Directive} {body : SlotBody} {head : Option LoopHead}
    (hhead : (tag.directive? "for").isSome = true → head.isSome = true)
    (h : addTemplate slots d body (tag.directive? "if") tag.slotOtherwise? (tag.directive? "for") head = .ok slots') :
    slots'.flatMap bodies =
        (if tag.joinsSlot && slots.getLast?.any isClosed then (slots.flatMap bodies).dropLast
          else slots.flatMap bodies) ++ [body] ∧
      slots'.getLast?.any isClosed = tag.closesSlot := by
  rw [Tag.closesSlot, Tag.joinsSlot]
  rcases hif : tag.directive? "if" with _ | c
  · rcases helse : tag.slotOtherwise? with _ | e
    · rcases hfor : tag.directive? "for" with _ | loop
      · simp only [hif, helse, hfor, addTemplate] at h
        rw [ite_eq_iff] at h
        obtain ⟨-, h⟩ | ⟨-, h⟩ := h
        · cases h
        · obtain rfl := Except.ok.inj h
          simpa using bodies_add slots d.arg body
      · obtain ⟨head, rfl⟩ := Option.isSome_iff_exists.mp (hhead (by rw [hfor]; rfl))
        simp only [hif, helse, hfor, addTemplate] at h
        obtain rfl := Except.ok.inj h
        simp [bodies, DynamicSlot.bodies, isClosed, DynamicSlot.isClosed]
    · simp only [hif, helse, addTemplate] at h
      split at h
      · next slots'' hattach =>
        obtain rfl := Except.ok.inj h
        obtain ⟨hbodies, c, positive, hclosed⟩ := bodies_attach? hattach
        rw [hbodies, hclosed]
        rcases hexp : e.exp with _ | condition
        · simp [hexp, DynamicSlot.bodies, DynamicSlot.isClosed]
        · cases hname : e.name == "else-if" <;>
            simp [hexp, hname, DynamicSlot.bodies, DynamicSlot.isClosed]
      · cases h
  · simp only [hif, addTemplate] at h
    obtain rfl := Except.ok.inj h
    simp [bodies, DynamicSlot.bodies, isClosed, DynamicSlot.isClosed]

theorem bodies_sublist {slot : Directive} {body : SlotBody} {condition otherwise loop : Option Directive}
    {head : Option LoopHead} (h : addTemplate slots slot body condition otherwise loop head = .ok slots') :
    (slots'.flatMap bodies).Sublist (slots.flatMap bodies ++ [body]) := by
  have hattached : ∀ {other : DynamicSlot}, attach? slots other = some slots' → other.bodies = [body] →
      (slots'.flatMap bodies).Sublist (slots.flatMap bodies ++ [body]) := by
    intro other hattach hother
    rw [(bodies_attach? hattach).1, hother]
    refine List.Sublist.append_right ?_ _
    split
    · exact List.dropLast_sublist _
    · exact List.Sublist.refl _
  unfold addTemplate at h
  dsimp only at h
  split at h
  · cases h
    simp [bodies, DynamicSlot.bodies]
  · split at h
    · next hattach =>
      cases h
      refine hattached hattach ?_
      split
      · split <;> rfl
      · rfl
    · cases h
  · split at h
    · cases h
      simp [bodies, DynamicSlot.bodies]
    · cases h
      exact List.sublist_append_left _ _
  · generalize Option.any (hasSlot slots) _ = duplicate at h
    cases duplicate with
    | true => cases h
    | false =>
      cases h
      rw [(bodies_add slots _ body).1]

/-- Whether slots hold what the slots of templates render. -/
structure Holds (templates : List (Tag × SlotBody)) (slots : List SlotGroup) : Prop where
  bodies : slots.flatMap bodies = keptBodies templates
  closed : slots.getLast?.any isClosed = templates.getLast?.any fun t => t.1.closesSlot

theorem Holds.nil : Holds [] [] := ⟨rfl, rfl⟩

theorem Holds.addTemplate (h : Holds templates slots) {tag : Tag} {d : Directive} {body : SlotBody}
    {head : Option LoopHead} (hhead : (tag.directive? "for").isSome = true → head.isSome = true)
    (hadd : SlotGroup.addTemplate slots d body (tag.directive? "if") tag.slotOtherwise? (tag.directive? "for") head = .ok slots') :
    Holds (templates ++ [(tag, body)]) slots' := by
  obtain ⟨hbodies, hclosed⟩ := bodies_addTemplate hhead hadd
  constructor
  · rw [hbodies, keptBodies_concat, h.bodies, h.closed]
  · rw [hclosed, List.getLast?_concat, Option.any_some]

end SlotGroup

end JsxTemplate
