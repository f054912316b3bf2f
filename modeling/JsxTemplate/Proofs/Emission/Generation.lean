import JsxTemplate.Proofs.Emission.Effects

/-!
# The blocks of the code

Every function of the code has been written for a block of the plan, and the events that are caught at the
document are those of the listeners in these blocks. Code sets a field of a node only for a listener at the
document. It closes the levels of indentation that it opens (`Listing.Accounted`).
-/

namespace JsxTemplate

open Emit

theorem Emitter.sortedDelegates_sorted (s : Emitter) : s.sortedDelegates.Pairwise (· ≤ ·) := by
  have htrans : ∀ a b c : String,
      decide (a ≤ b) = true → decide (b ≤ c) = true → decide (a ≤ c) = true := by
    intro a b c hab hbc
    exact decide_eq_true (String.le_trans (of_decide_eq_true hab) (of_decide_eq_true hbc))
  have htotal : ∀ a b : String, (decide (a ≤ b) || decide (b ≤ a)) = true := by
    intro a b
    simpa using String.le_total a b
  exact (List.pairwise_mergeSort htrans htotal s.delegates).imp of_decide_eq_true

def Block.HasBody (b : Block) (body : Listing) : Prop := ∃ κ, b.Written κ body

namespace Listing

/-- Whether a listing is level, sets no fields unless it catches events of its own, and has functions that
were written for blocks with a property. All events are its own and those of the blocks, unless nodes of a
block catch more. -/
structure Accounted (P : Block → Prop) (own events : List String) (l : Listing) : Prop where
  level : l.code.IsLevel
  fields : own = [] → l.fields = []
  blocks : ∃ blocks : List Block, (∀ b ∈ blocks, P b) ∧ List.Forall₂ Block.HasBody blocks l.bodies ∧
    ((∀ b ∈ blocks, b.Muted) → ∀ e, e ∈ events ↔ e ∈ own ∨ e ∈ blocks.flatMap Block.caught)

variable {P : Block → Prop} {own own' events events' : List String} {l l' : Listing}

theorem level?_filter_newline (l : Listing) (level : Nat) :
    (Listing.code (l.filter fun p => !p.isNewline)).level? level = l.code.level? level := by
  induction l generalizing level with
  | nil => rfl
  | cons p l ih =>
    rw [Listing.code, Code.level?_append]
    by_cases hp : p.isNewline = true
    · obtain rfl : p = .fragment .newline := by
        unfold Piece.isNewline at hp
        split at hp
        · rfl
        · cases hp
      exact ih level
    · rw [List.filter_cons, if_pos (by simpa using hp), Listing.code, Code.level?_append]
      exact congrArg _ (funext ih)

theorem isLevel_effectFunction (h : l.code.IsLevel) : l.effectFunction.code.IsLevel := by
  unfold effectFunction
  split
  · have hbody := h.inside "\x7b" "\x7d)"
    simpa [Listing.code, Piece.code, Piece.text, Piece.newline, code_append] using hbody
  · rw [code_append]
    refine Code.IsLevel.append (fun level => ?_) fun _ => rfl
    rw [level?_filter_newline, h level]

namespace Accounted

theorem append (h : l.Accounted P own events) (h' : l'.Accounted P own' events') :
    Accounted P (own ++ own') (events ++ events') (l ++ l') where
  level := by rw [code_append]; exact h.level.append h'.level
  fields hown := by
    obtain ⟨hown, hown'⟩ := List.append_eq_nil_iff.mp hown
    rw [fields_append, h.fields hown, h'.fields hown', List.nil_append]
  blocks := by
    obtain ⟨blocks, hP, hbodies, hevents⟩ := h.blocks
    obtain ⟨blocks', hP', hbodies', hevents'⟩ := h'.blocks
    refine ⟨blocks ++ blocks', ?_, ?_, fun hmuted e => ?_⟩
    · exact fun b hb => (List.mem_append.mp hb).elim (hP b) (hP' b)
    · rw [bodies_append]
      exact List.rel_append hbodies hbodies'
    · rw [List.mem_append, hevents fun b hb => hmuted b (List.mem_append_left _ hb),
        hevents' fun b hb => hmuted b (List.mem_append_right _ hb), List.flatMap_append]
      simp only [List.mem_append]
      tauto

/-- A listing with the same functions and fields has the same blocks. -/
theorem congr (h : l.Accounted P own events) (hlevel : l'.code.IsLevel) (hfields : l'.fields = l.fields)
    (hbodies : l'.bodies = l.bodies) : l'.Accounted P own events :=
  ⟨hlevel, by rw [hfields]; exact h.fields, by rw [hbodies]; exact h.blocks⟩

theorem function {b : Block} (hP : P b) (hown : b.Owns own) (hb : b.HasBody l) (parameters : List String)
    (h : l.Accounted P own events) : Accounted P [] events [.function parameters l] where
  level := by
    rw [Listing.code, Listing.code, List.append_nil, Piece.code]
    exact h.level.inside _ _
  fields _ := rfl
  blocks := by
    obtain ⟨blocks, hblocks, hbodies, hevents⟩ := h.blocks
    refine ⟨b :: blocks, List.forall_mem_cons.mpr ⟨hP, hblocks⟩, ?_, fun hmuted e => ?_⟩
    · rw [bodies_cons, Piece.bodies, bodies_nil, List.append_nil]
      exact .cons hb hbodies
    · obtain ⟨hself, hmuted⟩ := List.forall_mem_cons.mp hmuted
      simp [hevents hmuted e, hown hself e]

end Accounted

end Listing

namespace Correspondence

variable {P : Block → Prop} {b : Block}

/-- What there is in the code of a single run. -/
def accounted (P : Block → Prop) : Correspondence where
  Compared κ κ' := κ = κ'
  Covers := P
  Rel _ _ own events l l' := l = l' ∧ l.Accounted P own events
  alike := @Ambient.Matches.of_eq
  inside := @FunctionScope.inside_eq
  events := by
    rintro κ κ' own own' events events' l _ ⟨rfl, h⟩ hsame
    refine ⟨rfl, h.level, fun hown => h.fields ?_, ?_⟩
    · refine List.eq_nil_iff_forall_not_mem.mpr fun e he => ?_
      rw [(hsame e).1, hown] at he
      cases he
    · obtain ⟨blocks, hP, hbodies, hevents⟩ := h.blocks
      exact ⟨blocks, hP, hbodies, fun hmuted e => by rw [← (hsame e).1, ← (hsame e).2, hevents hmuted]⟩
  flat h := ⟨rfl, h.level, h.fields, [], by simp, by rw [h.bodies]; exact .nil, by simp⟩
  append := by
    rintro κ κ' own own' events events' l₁ _ l₂ _ ⟨rfl, h₁⟩ ⟨rfl, h₂⟩
    exact ⟨rfl, h₁.append h₂⟩
  framed := by
    rintro κ κ' own events left l _ right hframe ⟨rfl, h⟩
    have hfields := List.append_eq_nil_iff.mp ((Listing.fields_append _ _).symm.trans hframe.fields)
    have hbodies := List.append_eq_nil_iff.mp ((Listing.bodies_append _ _).symm.trans hframe.bodies)
    refine ⟨rfl, h.congr ?_ (by simp [hfields]) (by simp [hbodies])⟩
    rw [Listing.code_append, Listing.code_append]
    exact h.level.around hframe.levels
  rerun := by
    rintro κ κ' own events l _ ⟨rfl, h⟩
    exact ⟨rfl, rfl, h.congr (Listing.isLevel_effectFunction h.level)
      (Listing.flatMap_effectFunction (f := Piece.fields) (fun _ _ => rfl) l)
      (Listing.bodies_effectFunction l)⟩
  function := by
    rintro κ _ f b own events body _ rfl - hP hown hbody - ⟨rfl, h⟩
    exact ⟨rfl, h.function hP hown ⟨_, hbody⟩ _⟩

theorem accounted_loops : (accounted P).Loops := by
  refine loops_of_same ?_
  rintro κ _ rfl
  rfl

theorem accounted_body (hb : ∀ b' ∈ b :: b.inner, P b') : (accounted P).Body b := body accounted_loops hb

end Correspondence

end JsxTemplate
