import JsxTemplate.Compile
import JsxTemplate.Proofs.SourceMap.RoundTrip

/-!
# Places of the code

The place in the code is carried along from fragment to fragment. It is the place behind the text so far:
the number of line breaks, and of UTF-16 units behind the last one (`TextPlace.advance_zero`). So what is
recorded for the code are the ends of its mapped fragments in the text (`Code.mappings_eq_boundaries`), in the
order of the text.
-/

namespace JsxTemplate

/-! ## Places in a text -/

namespace TextPlace

/-- The place behind a text. -/
def behind (cs : List Char) : TextPlace :=
  ⟨cs.count '\n', SourceMap.columnAfter cs⟩

theorem advance_append (p : TextPlace) (cs ds : List Char) :
    p.advance (cs ++ ds) = (p.advance cs).advance ds :=
  List.foldl_append

theorem behind_append (cs : List Char) (c : Char) : behind (cs ++ [c]) = (behind cs).step c := by
  have hunits : ∀ xs, Text.unitLength (xs ++ [c]) = Text.unitLength xs + Text.unitLength [c] := by
    intro xs
    induction xs with
    | nil => simp [Text.unitLength]
    | cons x xs ih => simp only [List.cons_append, Text.unitLength, ih]; omega
  rw [behind, step, SourceMap.columnAfter, List.reverse_append, List.reverse_singleton, List.singleton_append]
  by_cases hc : c = '\n'
  · simp [behind, hc, Text.unitLength]
  · simp [behind, hc, SourceMap.columnAfter, hunits]

theorem advance_zero (cs : List Char) : advance ⟨0, 0⟩ cs = behind cs := by
  induction cs using List.reverseRecOn with
  | nil => rfl
  | append_singleton cs c ih => rw [advance_append, ih, behind_append]; rfl

/-- Whether a place of a text is in front of another one, or the same. -/
def Upto (p q : TextPlace) : Prop :=
  p.line < q.line ∨ p.line = q.line ∧ p.column ≤ q.column

theorem Upto.refl (p : TextPlace) : p.Upto p := .inr ⟨rfl, Nat.le_refl _⟩

theorem Upto.trans {p q r : TextPlace} (h : p.Upto q) (h' : q.Upto r) : p.Upto r := by
  unfold Upto at *
  omega

theorem upto_advance (p : TextPlace) (cs : List Char) : p.Upto (p.advance cs) := by
  induction cs generalizing p with
  | nil => exact .refl p
  | cons c cs ih =>
    have hstep : p.Upto (p.step c) := by
      unfold step
      split
      · exact .inl (Nat.lt_succ_self _)
      · exact .inr ⟨rfl, Nat.le_add_right _ _⟩
    exact hstep.trans (ih (p.step c))

end TextPlace

/-! ## The ends of fragments -/

namespace Code

/-- The ends of fragment number `i` in the text of the code and in the template, if it comes from there. -/
def endsAt (code : Code) (i : Nat) : List Mapping :=
  match code[i]? with
  | some (.mapped _ loc name) =>
    if loc.isStub then []
    else
      [⟨.behind (chars 0 (code.take i)), loc.start, name⟩,
        ⟨.behind (chars 0 (code.take (i + 1))), loc.stop, none⟩]
  | _ => []

/-- The ends of all fragments that come from the template. -/
def boundaries (code : Code) : List Mapping :=
  (List.range code.length).flatMap code.endsAt

def depthBehind (depth : Nat) (code : Code) : Nat :=
  code.foldl Fragment.depthAfter depth

theorem chars_append (depth : Nat) (code rest : Code) :
    (code ++ rest).chars depth = code.chars depth ++ rest.chars (code.depthBehind depth) := by
  induction code generalizing depth with
  | nil => rfl
  | cons f code ih =>
    rw [List.cons_append, chars, chars, ih, List.append_assoc]
    rfl

theorem mappingsFrom_append (depth : Nat) (place : TextPlace) (code : Code) (f : Fragment) :
    mappingsFrom depth place (code ++ [f]) = mappingsFrom depth place code ++
      f.mappings (place.advance (code.chars depth)) (place.advance (chars depth (code ++ [f]))) := by
  induction code generalizing depth place with
  | nil => simp [mappingsFrom, chars, TextPlace.advance]
  | cons g code ih =>
    rw [List.cons_append, mappingsFrom, mappingsFrom, ih, List.append_assoc, chars, chars,
      ← TextPlace.advance_append, ← TextPlace.advance_append]

theorem endsAt_append_of_lt {code : Code} {i : Nat} (h : i < code.length) (f : Fragment) :
    endsAt (code ++ [f]) i = endsAt code i := by
  rw [endsAt, List.getElem?_append_left h, List.take_append_of_le_length (Nat.le_of_lt h),
    List.take_append_of_le_length h]
  rfl

theorem endsAt_append_length (code : Code) (f : Fragment) :
    endsAt (code ++ [f]) code.length =
      f.mappings (.behind (code.chars 0)) (.behind (chars 0 (code ++ [f]))) := by
  have hall : (code ++ [f]).take (code.length + 1) = code ++ [f] := List.take_of_length_le (by simp)
  rw [endsAt, List.getElem?_concat_length, List.take_left, hall]
  cases f <;> rfl

theorem mappings_eq_boundaries (code : Code) : code.mappings = code.boundaries := by
  induction code using List.reverseRecOn with
  | nil => rfl
  | append_singleton code f ih =>
    have hfront : (List.range code.length).flatMap (endsAt (code ++ [f])) = boundaries code :=
      List.flatMap_congr fun i hi => endsAt_append_of_lt (List.mem_range.mp hi) f
    have hall : boundaries (code ++ [f]) = boundaries code ++ endsAt (code ++ [f]) code.length := by
      rw [boundaries, List.length_append, List.length_singleton, List.range_succ, List.flatMap_append, hfront,
        List.flatMap_singleton]
    rw [mappings, mappingsFrom_append, ← mappings, ih, TextPlace.advance_zero, TextPlace.advance_zero, hall,
      endsAt_append_length]

/-- What is recorded for a piece of code is in order and between its two ends. -/
theorem inOrder_mappingsFrom (depth : Nat) (place : TextPlace) (code : Code) :
    (∀ m ∈ mappingsFrom depth place code, place.Upto m.place) ∧
      SourceMap.InOrder (mappingsFrom depth place code) := by
  induction code generalizing depth place with
  | nil => exact ⟨fun m hm => absurd hm List.not_mem_nil, .nil⟩
  | cons f code ih =>
    rw [mappingsFrom]
    have hnext := place.upto_advance (f.chars depth)
    generalize place.advance (f.chars depth) = next at hnext ⊢
    obtain ⟨hupto, horder⟩ := ih (f.depthAfter depth) next
    have hends : ∀ m ∈ f.mappings place next, place.Upto m.place ∧ m.place.Upto next := by
      cases f with
      | mapped text loc name =>
        rw [Fragment.mappings]
        split
        · simp
        · simp [hnext, TextPlace.Upto.refl]
      | _ => simp [Fragment.mappings]
    have hfirst : SourceMap.InOrder (f.mappings place next) := by
      cases f with
      | mapped text loc name =>
        rw [Fragment.mappings]
        split
        · exact .nil
        · exact List.pairwise_pair.mpr hnext
      | _ => exact .nil
    refine ⟨fun m hm => ?_, List.pairwise_append.mpr ⟨hfirst, horder, fun m hm m' hm' => ?_⟩⟩
    · obtain hm | hm := List.mem_append.mp hm
      · exact (hends m hm).1
      · exact hnext.trans (hupto m hm)
    · exact (hends m hm).2.trans (hupto m' hm')

end Code

/-- A source map says of the code where its fragments come from, and it does not change the code. There is one
unless a fragment starts or ends inside a character of the template. The segments of each line have ascending
columns and are those of the ends of the mapped fragments that are last at their place, which is the place
behind the text in front of them. -/
theorem segments_sit_at_boundaries (options : CompileOptions) (plan : RenderPlan) (errors : List Diagnostic)
    (source : String) (code : Code) :
    (∃ c, plan.compile { options with sourceMap := false } errors = .ok c ∧ c.sourceMap = none ∧
      let generated := (plan.generate options.emitting options.runtimeModule).code
      c.code = generated.render ∧
      plan.compile { options with sourceMap := true } errors =
        if generated.boundaries.all (SourceMap.isBetweenCharacters plan.source) then
          .ok { c with sourceMap := some ⟨options.filename, plan.source, SourceMap.namesOf generated.boundaries,
            String.ofList (SourceMap.encodeLines ⟨0, 0, 0, 0⟩
              (SourceMap.segments plan.source generated.boundaries))⟩ }
        else .error .insideCharacter) ∧
    (∀ i, Code.chars 0 (code.take i) <+: code.render.toList) ∧
    ∀ line, ∃ ms : List Mapping,
      (SourceMap.segments source code.mappings).getD line [] =
        ms.map (SourceMap.segment source (SourceMap.namesOf code.mappings)) ∧
      (ms.Pairwise fun a b => a.place.column < b.place.column) ∧
      ∀ m, m ∈ ms ↔ m.place.line = line ∧ SourceMap.IsLast code.boundaries m := by
  refine ⟨⟨_, rfl, rfl, rfl, ?_⟩, fun i => ?_, fun line => ?_⟩
  · rw [← Code.mappings_eq_boundaries]
    let generated := (plan.generate options.emitting options.runtimeModule).code
    by_cases hcut : generated.mappings.all (SourceMap.isBetweenCharacters plan.source)
    · have hmap : plan.sourceMap { options with sourceMap := true } generated = .ok (some _) :=
        congrArg (Except.map some) (if_pos hcut)
      rw [if_pos hcut]
      exact congrArg (Except.map _) hmap
    · have hmap : plan.sourceMap { options with sourceMap := true } generated = .error .insideCharacter :=
        congrArg (Except.map some) (if_neg hcut)
      rw [if_neg hcut]
      exact congrArg (Except.map _) hmap
  · conv_rhs => rw [Code.render, String.toList_ofList, ← List.take_append_drop i code, Code.chars_append]
    exact List.prefix_append _ _
  · obtain ⟨hcolumns, hmem⟩ := SourceMap.recorded_of_inOrder (Code.inOrder_mappingsFrom 0 ⟨0, 0⟩ code).2 line
    refine ⟨_, SourceMap.segments_getD source code.mappings line, hcolumns, fun m => ?_⟩
    rw [← Code.mappings_eq_boundaries]
    exact hmem m

/-- The argument of an attribute is looked for at the start of the attribute, so a variable in it may seem to
end inside a character. Then there is code, but none with a source map. -/
theorem no_map_inside_character :
    let source := "<div v-for=\x7baééééb in list\x7d v-bind:$aééééb$=\x7bx\x7d/>"
    let options : CompileOptions := ⟨"index.jsx", "vue", false, false, true, false, fun _ => false⟩
    (compile options .none source).outcome.isOk = true ∧
      (compile { options with sourceMap := true } .none source).outcome = .error (.cut .insideCharacter) := by
  decide +kernel

end JsxTemplate
