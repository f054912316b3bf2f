import JsxTemplate.Proofs.Emission.Splices
import JsxTemplate.Proofs.SourceMap.Boundaries
import JsxTemplate.Proofs.Template.Positions

/-!
# Names of the source map

A variable of a loop or a slot is replaced in the code, and the source map keeps its name. Where an expression
is a copy of the source, what is written for the name leads to where the name stands.
-/

namespace JsxTemplate

open Script (Reference)

namespace Expression

/-- The expression is a copy of the source between two characters, and placed there. -/
def IsCopy (source : String) (e : Expression) : Prop :=
  ∃ start stop, start ≤ stop ∧ Text.isBoundary source start = true ∧ Text.isBoundary source stop = true ∧
    e = Template.expressionAt (.ofSource source) ⟨start, stop⟩

namespace IsCopy

variable {source : String} {e : Expression}

/-- A range of a copy is one of the source. -/
theorem exists_range (h : e.IsCopy source) {a b : Nat} (hab : a ≤ b)
    (ha : Text.isBoundary e.content a = true) (hb : Text.isBoundary e.content b = true) :
    ∃ start stop, start ≤ stop ∧ Text.isBoundary source start = true ∧ Text.isBoundary source stop = true ∧
      e.subLocation a b = (LineTable.ofSource source).location start stop ∧
      Text.slice source start stop = Text.slice e.content a b := by
  obtain ⟨s, t, hst, hs, ht, rfl⟩ := h
  obtain ⟨xs, ys, zs, hsource, rfl, rfl⟩ := Text.exists_between hs ht hst
  have hcontent : (Template.expressionAt (.ofSource source)
      ⟨Text.byteLength xs, Text.byteLength (xs ++ ys)⟩).content = String.ofList ys := by
    have hsize : Text.byteLength (xs ++ ys) ≤ source.utf8ByteSize := by
      rw [← Text.byteLength_toList, hsource, Text.byteLength_append (xs ++ ys)]
      omega
    rw [Template.expressionAt, Template.locate, LineTable.location_eq hst hsize]
    exact Text.slice_eq hsource
  rw [hcontent] at ha hb ⊢
  have hbound : ∀ {n}, Text.isBoundary (String.ofList ys) n = true →
      n ≤ Text.byteLength ys ∧ Text.isBoundary source (Text.byteLength xs + n) = true := by
    intro n hn
    obtain ⟨as, bs, hys, rfl⟩ := Text.isBoundary_iff.mp hn
    rw [String.toList_ofList] at hys
    refine ⟨by rw [hys, Text.byteLength_append]; omega, Text.isBoundary_iff.mpr ⟨xs ++ as, bs ++ zs, ?_, ?_⟩⟩
    · simp [hsource, hys]
    · rw [Text.byteLength_append]
  have hle := (hbound hb).1
  exact ⟨_, _, Nat.add_le_add_left hab _, (hbound ha).2, (hbound hb).2,
    Template.subLocation_expressionAt hsource hab hle, Text.slice_piece hsource hab hle⟩

theorem le_size {n : Nat} (h : Text.isBoundary source n = true) : n ≤ source.utf8ByteSize := by
  obtain ⟨xs, ys, hs, rfl⟩ := Text.isBoundary_iff.mp h
  rw [← Text.byteLength_toList, hs, Text.byteLength_append]
  omega

theorem sub (h : e.IsCopy source) {a b : Nat} (hab : a ≤ b) (ha : Text.isBoundary e.content a = true)
    (hb : Text.isBoundary e.content b = true) : (e.sub a b).IsCopy source := by
  obtain ⟨start, stop, hle, hstart, hstop, hloc, htext⟩ := h.exists_range hab ha hb
  refine ⟨start, stop, hle, hstart, hstop, ?_⟩
  rw [Expression.sub, ← htext, hloc, Template.expressionAt, Template.locate,
    LineTable.location_eq hle (le_size hstop)]

end IsCopy

end Expression

end JsxTemplate
