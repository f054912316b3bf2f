import JsxTemplate.Proofs.Emission.Generation

/-!
# Comparisons with the key of a loop

If comparisons with the key are treated specially, the operations in the effects of a loop are written in
another order and in other functions, but none of them is lost, written twice or changed. This is said of
the whole code, with loops inside loops (`Listing.Rearranged`): what is written with the optimizer is
related to what is written without it, and nothing but the effects of loops differs.
-/

namespace JsxTemplate

open Emit

/-! ## Code with and without the optimizer -/

/-- What is in force where comparisons with the key of a loop are not treated specially. -/
def Ambient.plain (κ : Ambient) : Ambient :=
  { κ with options := { κ.options with optimizeLoops := false } }

/-- How what is written with the optimizer is related to what is written without it. For a loop there are
no selectors, all effects are run again together, and the rest of the body is related in the same way, as
is the code of every operation of its effects. -/
inductive Listing.Rearranged : Listing → Listing → Prop
  | nil : Rearranged [] []
  | piece {p : Piece} {rest rest' : Listing} (hp : p.bodies = []) (hrest : Rearranged rest rest') :
    Rearranged (p :: rest) (p :: rest')
  | function {parameters : List String} {body body' rest rest' : Listing} (hbody : Rearranged body body')
    (hrest : Rearranged rest rest') :
    Rearranged (.function parameters body :: rest) (.function parameters body' :: rest')
  | loop (l : LoopPlan) {κ : Ambient} (hκ : κ.options.optimizeLoops = true)
    (around around' : List (Block × Nat)) (next : Nat) {front front' rest rest' : Listing}
    (hfront : Rearranged front front')
    (heffects : ∀ op ∈ l.effectOperations, Rearranged ((l.effectScene ⟨κ, around⟩ next).write op)
      ((l.effectScene ⟨κ.plain, around'⟩ next).write op))
    (hrest : Rearranged rest rest') :
    Rearranged
      (l.listing κ (l.selectors κ)
        (front ++ Listing.loopEffects l.id (l.kind true) l.render.effects
            (l.effectScene ⟨κ, around⟩ next).write
          ++ Listing.returning l.render.returns) ++ rest)
      (l.listing κ []
        (front' ++ Listing.rerunOf
            (l.effectOperations.flatMap (l.effectScene ⟨κ.plain, around'⟩ next).write)
          ++ Listing.returning l.render.returns) ++ rest')

namespace Listing

variable {l l' r r' : Listing}

theorem bodies_listing (p : LoopPlan) (κ : Ambient) (selectors : List Code) (body : Listing) :
    (p.listing κ selectors body).bodies = body :: body.bodies := by
  have hcode : ∀ code : Option Code, ((code.map ofCode).getD []).bodies = [] := by
    intro code
    cases code <;> simp
  have hflags : (p.flags.getD []).bodies = [] := by
    unfold LoopPlan.flags
    split <;> simp
  simp [LoopPlan.listing, Piece.bodies, hcode, hflags]

namespace Rearranged

theorem refl (l : Listing) : Rearranged l l := by
  induction l using nested_induction with
  | nil => exact .nil
  | function parameters body l ihbody ih => exact .function ihbody ih
  | piece p l hp ih => exact .piece hp ih

theorem append (h : Rearranged l l') (hr : Rearranged r r') : Rearranged (l ++ r) (l' ++ r') := by
  induction h with
  | nil => exact hr
  | piece hp _ ih => exact .piece hp ih
  | function hbody _ _ ih => exact .function hbody ih
  | @loop p κ hκ around around' next front front' rest rest' hfront heffects _ _ _ ih =>
    rw [List.append_assoc _ rest r, List.append_assoc _ rest' r']
    exact .loop p hκ around around' next hfront heffects ih

theorem eq_of_flat (h : Rearranged l l') (hflat : l.bodies = []) : l = l' := by
  induction h with
  | nil => rfl
  | piece hp _ ih =>
    rw [bodies_cons, hp, List.nil_append] at hflat
    rw [ih hflat]
  | function _ _ _ _ => simp [Piece.bodies] at hflat
  | loop => simp [bodies_listing] at hflat

end Rearranged

/-! ## Code on several lines -/

/-- Whether code has more than one line break, so that it is put in braces when it is run again. -/
def IsLong (l : Listing) : Prop := 1 < l.code.countP (· == .newline)

theorem IsLong.append_left (h : l.IsLong) (r : Listing) : (l ++ r).IsLong := by
  unfold IsLong at *
  rw [code_append, List.countP_append]
  omega

theorem IsLong.append_right (h : r.IsLong) (l : Listing) : (l ++ r).IsLong := by
  unfold IsLong at *
  rw [code_append, List.countP_append]
  omega

theorem IsLong.isEmpty_eq (h : l.IsLong) : l.isEmpty = false := by
  cases l with
  | nil => simp [IsLong, Listing.code] at h
  | cons p l => rfl

theorem IsLong.function {body : Listing} (h : body.IsLong) (parameters : List String) :
    IsLong [.function parameters body] := by
  unfold IsLong at *
  simp only [Listing.code, Piece.code, Code.function, List.append_nil, List.countP_cons, List.countP_append,
    List.cons_append]
  omega

theorem effectFunction_of_isLong (h : l.IsLong) :
    l.effectFunction = [.text "\x7b", .fragment .indent] ++ l
      ++ [.fragment .dedent, .newline, .text "\x7d)"] := by
  unfold IsLong at h
  rw [effectFunction, if_pos h]
  rfl

theorem countP_newline_of_bodies (h : l.bodies ≠ []) : 0 < l.code.countP (· == .newline) := by
  induction l with
  | nil => exact absurd rfl h
  | cons p l ih =>
    rw [Listing.code, List.countP_append]
    by_cases hp : p.bodies = []
    · rw [bodies_cons, hp, List.nil_append] at h
      have := ih h
      omega
    · cases p with
      | function parameters body =>
        have : 0 < (Piece.function parameters body).code.countP (· == .newline) := by
          simp [Piece.code, Code.function]
        omega
      | _ => exact absurd rfl hp

theorem isLong_listing (p : LoopPlan) (κ : Ambient) (selectors : List Code) (body : Listing) :
    (p.listing κ selectors body).IsLong := by
  have hbodies := bodies_listing p κ selectors body
  unfold LoopPlan.listing at hbodies ⊢
  rw [List.cons_append, bodies_cons, Piece.bodies_newline, List.nil_append] at hbodies
  have := countP_newline_of_bodies (by rw [hbodies]; exact List.cons_ne_nil _ _)
  unfold IsLong
  rw [List.cons_append, Listing.code, List.countP_append, Piece.newline, Piece.code]
  simp only [List.countP_singleton, beq_self_eq_true, if_true]
  omega

end Listing

/-! ## The correspondence -/

open Listing

namespace Correspondence

/-- The code of two runs, the first of which is with the optimizer. -/
def optimizer : Correspondence where
  Compared κ κ' := κ.options.optimizeLoops = true ∧ κ' = κ.plain
  Covers _ := True
  Rel _ _ _ _ l l' := Rearranged l l' ∧ (l = l' ∨ l.IsLong ∧ l'.IsLong)
  alike := by
    rintro κ _ ⟨-, rfl⟩
    exact ⟨rfl, rfl, .refl _, rfl⟩
  inside := by
    rintro κ _ f ⟨hκ, rfl⟩ -
    exact ⟨hκ, rfl⟩
  events h _ := h
  flat _ := ⟨.refl _, Or.inl rfl⟩
  append := by
    rintro κ κ' own own' events events' l₁ l₁' l₂ l₂' ⟨h₁, hlong₁⟩ ⟨h₂, hlong₂⟩
    refine ⟨h₁.append h₂, ?_⟩
    rcases hlong₁ with rfl | ⟨hlong, hlong'⟩
    · rcases hlong₂ with rfl | ⟨hlong, hlong'⟩
      · exact Or.inl rfl
      · exact Or.inr ⟨hlong.append_right _, hlong'.append_right _⟩
    · exact Or.inr ⟨hlong.append_left _, hlong'.append_left _⟩
  framed := by
    rintro κ κ' own events left l l' right - ⟨h, hlong⟩
    refine ⟨((Rearranged.refl left).append h).append (.refl right), hlong.imp (by rintro rfl; rfl) ?_⟩
    exact fun hlong => ⟨(hlong.1.append_right _).append_left _, (hlong.2.append_right _).append_left _⟩
  rerun := by
    rintro κ κ' own events l l' ⟨h, rfl | ⟨hlong, hlong'⟩⟩
    · exact ⟨rfl, .refl _, Or.inl rfl⟩
    · rw [hlong.isEmpty_eq, hlong'.isEmpty_eq, effectFunction_of_isLong hlong,
        effectFunction_of_isLong hlong']
      exact ⟨rfl, ((Rearranged.refl _).append h).append (.refl _),
        Or.inr ⟨(hlong.append_right _).append_left _, (hlong'.append_right _).append_left _⟩⟩
  function := by
    rintro κ κ' f b own events body body' - - - - - - ⟨h, hlong⟩
    refine ⟨.function h .nil, hlong.imp (by rintro rfl; rfl) fun hlong => ?_⟩
    exact ⟨hlong.1.function _, hlong.2.function _⟩

end Correspondence

theorem LoopPlan.kind_false (l : LoopPlan) (es : List Expression) : l.kind false es = .regular := by
  unfold LoopPlan.kind LoopEffect.ofExpressions
  split <;> rfl

theorem LoopPlan.selectors_plain (l : LoopPlan) (κ : Ambient) : l.selectors κ.plain = [] := by
  have hselected : l.selected false = [] := by
    simp [LoopPlan.selected, l.kind_false, LoopEffect.value?]
  rw [LoopPlan.selectors, show κ.plain.options.optimizeLoops = false from rfl, hselected]
  rfl

namespace Correspondence

theorem yields_loop_both {l : LoopPlan} (hrender : optimizer.Body l.render) {κ : Ambient}
    (hκ : κ.options.optimizeLoops = true) (around around' : List (Block × Nat)) :
    ∃ next front front' events,
      Yields (Listing.loop l) ⟨κ, around⟩ (l.listing κ (l.selectors κ)
        (front ++ loopEffects l.id (l.kind true) l.render.effects
            (l.effectScene ⟨κ, around⟩ next).write
          ++ Listing.returning l.render.returns)) events ⟨κ, around⟩ ∧
      Yields (Listing.loop l) ⟨κ.plain, around'⟩ (l.listing κ []
        (front' ++ rerunOf (l.effectOperations.flatMap (l.effectScene ⟨κ.plain, around'⟩ next).write)
          ++ Listing.returning l.render.returns)) events ⟨κ.plain, around'⟩ ∧
      Rearranged front front' ∧
      ∀ op ∈ l.effectOperations, Rearranged ((l.effectScene ⟨κ, around⟩ next).write op)
        ((l.effectScene ⟨κ.plain, around'⟩ next).write op) := by
  have hbody : optimizer.Compared (l.bodyScene ⟨κ, around⟩).toAmbient
      (l.bodyScene ⟨κ.plain, around'⟩).toAmbient := ⟨hκ, rfl⟩
  obtain ⟨next, _, -, nodes, nodes', found, hnodes, hnodes', hnodesrel⟩ := hrender.nodes hbody
  have hscenes : optimizer.Scenes (l.effectScene ⟨κ, around⟩ next)
      (l.effectScene ⟨κ.plain, around'⟩ next) := ⟨hbody, rfl⟩
  obtain ⟨code, code', made, hcode, hcode', hcoderel⟩ := hrender.operations hscenes
  -- each operation of an effect does in its scene what it does there alone
  have heffects := fun e he op hop => hrender.effects e he op hop hscenes
  let events := fun op => (ownOperation (some op) (l.effectScene ⟨κ, around⟩ next).start).2.delegates
  have hon : ∀ e ∈ l.render.effects, ∀ op ∈ e.operations, Yields (ownOperation (some op))
      (l.effectScene ⟨κ, around⟩ next) ((l.effectScene ⟨κ, around⟩ next).write op) (events op)
      (l.effectScene ⟨κ, around⟩ next) := by
    intro e he op hop
    obtain ⟨_, _, _, hx, -, -⟩ := heffects e he op hop
    obtain rfl := hx.value
    exact hx.congr_events hx.mem_delegates
  have hoff : ∀ e ∈ l.render.effects, ∀ op ∈ e.operations, Yields (ownOperation (some op))
      (l.effectScene ⟨κ.plain, around'⟩ next) ((l.effectScene ⟨κ.plain, around'⟩ next).write op)
      (events op) (l.effectScene ⟨κ.plain, around'⟩ next) := by
    intro e he op hop
    obtain ⟨_, _, _, hx, hy, -⟩ := heffects e he op hop
    obtain rfl := hy.value
    exact hy.congr_events hx.mem_delegates
  have hx := yields_loop (l := l) (σ := ⟨κ, around⟩) (yields_loopBody hnodes hcode hon _ _)
  have hy := yields_loop (l := l) (σ := ⟨κ.plain, around'⟩) (yields_loopBody hnodes' hcode' hoff _ _)
  have hkind : l.kind (Scene.mk κ.plain around').options.optimizeLoops = l.kind false := rfl
  rw [hκ] at hx
  rw [hkind, loopEffects_of_regular l.kind_false, l.selectors_plain] at hy
  refine ⟨next, _, _, _, hx, hy, hnodesrel.1.append hcoderel.1, fun op hop => ?_⟩
  obtain ⟨e, he, hop⟩ := List.mem_flatMap.mp hop
  obtain ⟨_, _, _, hx, hy, hrel, -⟩ := heffects e he op hop
  rw [Scene.write, Scene.write, hx.value, hy.value]
  exact hrel

theorem optimizer_loops : optimizer.Loops := by
  rintro l hrender ⟨κ, around⟩ ⟨_, around'⟩ ⟨⟨hκ, rfl⟩, -⟩
  obtain ⟨next, front, front', events, hx, hy, hfront, heffects⟩ :=
    yields_loop_both hrender hκ around around'
  refine ⟨_, _, events, hx, hy, ?_, Or.inr ⟨isLong_listing _ _ _ _, isLong_listing _ _ _ _⟩⟩
  have hloop := Rearranged.loop l hκ around around' next hfront heffects .nil
  rwa [List.append_nil, List.append_nil] at hloop

theorem optimizer_body (b : Block) : optimizer.Body b := body optimizer_loops fun _ _ => trivial

end Correspondence

theorem Scene.bodies_write {op : Operation} (hop : op.blocks = []) (σ : Scene) :
    (σ.write op).bodies = [] := by
  have hsteady : (Correspondence.accounted fun _ => False).Steady op.caught (ownOperation (some op)) :=
    Correspondence.steady_ownOperation Correspondence.accounted_loops (by simp [hop])
  obtain ⟨_, _, _, hx, -, -, h⟩ := hsteady (σ := σ) (τ := σ) ⟨rfl, rfl⟩
  obtain ⟨blocks, hnone, hbodies, -⟩ := h.blocks
  obtain rfl := List.eq_nil_iff_forall_not_mem.mpr hnone
  rw [write, hx.value]
  exact List.forall₂_nil_left_iff.mp hbodies

/-- Operations without blocks are written in the same way with and without the optimizer. -/
theorem Scene.write_plain {op : Operation} (hop : op.blocks = []) {κ : Ambient}
    (hκ : κ.options.optimizeLoops = true) {around around' : List (Block × Nat)}
    (hcurrent : around.head? = around'.head?) :
    (Scene.mk κ around).write op = (Scene.mk κ.plain around').write op := by
  have hsteady : Correspondence.optimizer.Steady op.caught (ownOperation (some op)) :=
    Correspondence.steady_ownOperation Correspondence.optimizer_loops fun b _ =>
      Correspondence.optimizer_body b
  obtain ⟨_, _, _, hx, hy, hrel, -⟩ := hsteady (σ := ⟨κ, around⟩) (τ := ⟨κ.plain, around'⟩)
    ⟨⟨hκ, rfl⟩, hcurrent⟩
  obtain rfl := hx.value
  obtain rfl := hy.value
  exact hrel.eq_of_flat (Scene.bodies_write hop _)

end JsxTemplate
