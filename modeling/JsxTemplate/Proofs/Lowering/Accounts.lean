import JsxTemplate.Proofs.Lowering.Views

/-!
# The accounts of the open blocks

Of a block that is being filled, the account says what the block was made for and which nodes it gives
back so far. Only a child of a fragment changes the account of the current block (`addToBlock`). All other
work leaves the accounts alone (`Mute`), apart from entering blocks, whose accounts are empty, and leaving
them.
-/

namespace JsxTemplate

namespace Lower

theorem mute_popFrame : Mute popFrame := by
  intro c
  rw [popFrame_run]
  rfl

/-! ## Entering and leaving blocks -/

theorem accounts_exitBlock {c : Context} (h : c.saved ≠ []) :
    (exitBlock c).2.accounts = c.accounts.tail ∧ c.block.account = ((exitBlock c).1.loc, (exitBlock c).1.returns) := by
  obtain ⟨b, saved, hsaved⟩ := List.exists_cons_of_ne_nil h
  obtain ⟨template, pieces, -, hexit⟩ := exitBlock_of_saved hsaved
  rw [hexit, Context.accounts, Context.accounts, hsaved]
  exact ⟨rfl, rfl⟩

theorem accounts_runExit {exit : Exit} (hclosing : exit.isClosing = true) {c : Context}
    (h : c.saved ≠ []) : (runExit .none exit c).2.accounts = c.accounts.tail := by
  have hscope : ∀ scope c, (popScope scope c).2.accounts = c.accounts := fun _ _ => rfl
  have hleave := (accounts_exitBlock h).1
  cases exit with
  | branch id condition => exact hleave
  | otherwise condition => exact ((does_attach _).mute rfl _).trans hleave
  | loop id head keyProperty component scope =>
    exact ((does_setLoop id head keyProperty component _).mute rfl _).trans ((hscope scope _).trans hleave)
  | componentSlots d pattern firstOther scope =>
    have hleave := (accounts_exitBlock (c := (takeSlots c).2) h).1
    exact ((tells_setComponentSlots d pattern firstOther _ _).mute rfl _).trans ((hscope scope _).trans hleave)
  | templateSlot d condition otherwise loop head scope =>
    exact ((tells_setTemplateSlot d condition otherwise loop head _).mute rfl _).trans
      ((hscope scope _).trans hleave)
  | reference value | element cursor | added run => cases hclosing

/-! ## Slots -/

/-- Whether a step enters a block for an element, which is left later. -/
def Encircles (tag : Tag) (step : Lower (List Exit)) : Prop :=
  ∀ c, (step c).1 ≠ [] ∧ (step c).2.accounts = (tag.loc, []) :: c.accounts

theorem encircles_bind {α : Type} {tag : Tag} {x : Lower α} {f : α → Lower (List Exit)} (hx : Mute x)
    (hf : ∀ a, Encircles tag (f a)) : Encircles tag (x >>= f) := fun c =>
  ⟨(hf _ _).1, (hf _ _).2.trans (by rw [hx c])⟩

theorem encircles_enterComponentSlots (tag : Tag) (children : List Node) (d : Option Directive) :
    Encircles tag (enterComponentSlots tag children d) := by
  intro c
  rw [enterComponentSlots]
  dsimp only
  split
  · exact ⟨List.cons_ne_nil _ _, rfl⟩
  · exact ⟨List.cons_ne_nil _ _, rfl⟩

theorem encircles_enterTemplateSlot (tag : Tag) (d : Directive) : Encircles tag (enterTemplateSlot tag d) :=
  encircles_bind ((does_flags fun _ => rfl).mute rfl) fun _ => encircles_bind ((tells_slotHead _).mute rfl)
    fun _ _ => ⟨List.cons_ne_nil _ _, rfl⟩

/-- The step for slots enters a block for the node, or it does nothing to the accounts. It enters one for
each component that has children. -/
theorem accounts_slotStep {c : Context} {v : Visited} (hv : c.frame.node = some v) :
    ((slotStep c).1 = [] ∧ (slotStep c).2.accounts = c.accounts ∧
      (v.tag?.any Tag.isComponent = true → v.children = [])) ∨
    (slotStep c).1 ≠ [] ∧ (slotStep c).2.accounts = v.account :: c.accounts ∧ v.isFragment = true := by
  by_cases hother : ∀ path tag children, v ≠ .node path (.element tag children)
  · have hcomponent : v.tag?.any Tag.isComponent = true → v.children = [] := by
      intro hcomponent
      cases v with
      | node path n =>
        cases n with
        | element tag children => exact absurd rfl (hother path tag children)
        | _ => cases hcomponent
      | _ => cases hcomponent
    have hnothing := slotStep_of_other fun path tag children h =>
      hother path tag children (Option.some.inj (hv.symm.trans h))
    rw [hnothing]
    exact Or.inl ⟨rfl, rfl, hcomponent⟩
  push Not at hother
  obtain ⟨path, tag, children, rfl⟩ := hother
  rw [slotStep, run_bind, node_of_some hv]
  dsimp only
  cases hcomponent : tag.isComponent with
  | true =>
    have hfragment : (Visited.node path (.element tag children)).isFragment = true := by
      have htype : tag.type = .component := by simpa [Tag.isComponent] using hcomponent
      simp [Visited.isFragment, htype]
    have hadd : ∀ slots, Mute (addSlots slots) := fun slots => (does_addSlots slots).mute rfl
    simp only [if_true]
    by_cases hempty : children = []
    · subst hempty
      cases (tag.directive? "slots").bind Directive.exp with
      | some e => exact Or.inl ⟨rfl, hadd _ _, fun _ => rfl⟩
      | none => exact Or.inl ⟨rfl, rfl, fun _ => rfl⟩
    · simp only [List.isEmpty_iff, hempty, if_false]
      right
      cases (tag.directive? "slots").bind Directive.exp with
      | some e =>
        obtain ⟨hexits, haccounts⟩ :=
          encircles_bind (hadd [.object e]) (fun _ => encircles_enterComponentSlots tag children _) c
        exact ⟨hexits, haccounts, hfragment⟩
      | none =>
        obtain ⟨hexits, haccounts⟩ := encircles_enterComponentSlots tag children (tag.directive? "slot") c
        exact ⟨hexits, haccounts, hfragment⟩
  | false =>
    simp only [Bool.false_eq_true, if_false, Visited.tag?, Option.any_some, hcomponent, false_implies,
      and_true]
    cases tag.directive? "slot" with
    | none => exact Or.inl ⟨rfl, rfl⟩
    | some d =>
      have hinside : (isInComponent c).2 = c := rfl
      dsimp only
      rw [run_bind, hinside]
      split
      · next hslot =>
        obtain ⟨hexits, haccounts⟩ := encircles_enterTemplateSlot tag d c
        have htype : tag.type = .template := by
          rw [Bool.and_eq_true] at hslot
          simpa using hslot.1
        exact Or.inr ⟨hexits, haccounts, by simp [Visited.isFragment, htype]⟩
      · exact Or.inl ⟨rfl, rfl⟩

end Lower

end JsxTemplate
