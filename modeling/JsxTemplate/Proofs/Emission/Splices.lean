import JsxTemplate.Proofs.Emission.Scene
import JsxTemplate.Proofs.Text.Ranges

/-!
# Replaced variables

In a piece of an expression the references to variables for which something else stands are replaced, and
everything else is kept as it is. The pieces between the replaced references are the same before and
after, so that nothing is added, left out or moved.
-/

namespace JsxTemplate

open Script (Reference)

namespace Script.Reference

/-- Whether a reference is inside of a range of bytes and something else stands for its variable. -/
def isReplaced (names : Renaming) (start stop : Nat) (r : Reference) : Bool :=
  start ≤ r.start && r.stop ≤ stop && (names.replacement? r.name).isSome

/-- What stands for a reference that is replaced. A name that is a property and its value keeps the
property. -/
def rewritten (names : Renaming) (r : Reference) : String :=
  (if r.shorthand then r.name ++ ": " else "") ++ (names.replacement? r.name).getD r.name

def range (r : Reference) : Nat × Nat := (r.start, r.stop)

/-- References that stand one behind the other in a text. -/
structure InOrder (content : String) (references : List Reference) : Prop where
  /-- Each of them ends before the next starts. -/
  apart : references.Pairwise (·.stop ≤ ·.start)
  /-- None of them ends before it starts. -/
  upright : ∀ r ∈ references, r.start ≤ r.stop
  /-- The text can be cut around each of them. -/
  bounded : ∀ r ∈ references, Text.isBoundary content r.start = true ∧ Text.isBoundary content r.stop = true

theorem InOrder.tail {content : String} {r : Reference} {rs : List Reference}
    (h : InOrder content (r :: rs)) : InOrder content rs where
  apart := h.apart.tail
  upright r hr := h.upright r (List.mem_cons_of_mem _ hr)
  bounded r hr := h.bounded r (List.mem_cons_of_mem _ hr)

end Script.Reference

namespace Expression

variable (e : Expression) {names : Renaming} {start stop : Nat}

/-- A reference that is replaced ends the piece before it and starts the next one; any other is part of
the piece around it. -/
theorem substituteFrom_cons (last : Nat) (r : Reference) (rs : List Reference) :
    e.substituteFrom names start stop last (r :: rs) =
      if r.isReplaced names start stop then
        ((if last < r.start then [e.piece last r.start] else []) ++
            .mapped (r.rewritten names) (e.subLocation r.start r.stop) (some r.name) ::
              (e.substituteFrom names start stop r.stop rs).1,
          (e.substituteFrom names start stop r.stop rs).2 + 1)
      else e.substituteFrom names start stop last rs := by
  rw [substituteFrom]
  by_cases hout : r.start < start ∨ stop < r.stop
  · rw [if_pos (by simpa using hout), if_neg]
    simp only [Reference.isReplaced, Bool.and_eq_true, decide_eq_true_eq]
    omega
  · rw [if_neg (by simpa using hout)]
    have hin : (decide (start ≤ r.start) && decide (r.stop ≤ stop)) = true := by
      simp only [Bool.and_eq_true, decide_eq_true_eq]
      omega
    simp only [Reference.isReplaced, hin, Bool.true_and, Renaming.replacement?]
    rcases hfind : names.find? r.name with _ | _ | replacement
    · rfl
    · rfl
    · simp only [Option.join_some, Option.isSome_some, if_true, replaced, Reference.rewritten,
        Renaming.replacement?, hfind, Option.getD_some]
      cases r.shorthand <;> simp

theorem chars_piece (depth last next : Nat) (code : Code) :
    Code.chars depth ((if last < next then [e.piece last next] else []) ++ code) =
      (if last < next then Text.slice e.content last next else "").toList ++ code.chars depth := by
  split <;> rfl

/-- The replaced references cut a piece of the text, if those that are behind its start are not before
`last`. -/
theorem cut_of_inOrder {references : List Reference} (h : Reference.InOrder e.content references)
    (hstop : Text.isBoundary e.content stop = true) {last : Nat}
    (hlast : Text.isBoundary e.content last = true) (hle : last ≤ stop)
    (hfrom : ∀ r ∈ references, start ≤ r.start → last ≤ r.start) :
    Text.Cut e.content stop last
      ((references.filter (Reference.isReplaced names start stop)).map Reference.range) := by
  induction references generalizing last with
  | nil => exact .nil hlast hstop hle
  | cons r rs ih =>
    rw [List.filter_cons]
    split
    · next hr =>
      simp only [Reference.isReplaced, Bool.and_eq_true, decide_eq_true_eq] at hr
      obtain ⟨⟨hin, hout⟩, -⟩ := hr
      obtain ⟨hfirst, hsecond⟩ := h.bounded r List.mem_cons_self
      refine .cons hlast hfirst (hfrom r List.mem_cons_self hin) (h.upright r List.mem_cons_self) ?_
      refine ih h.tail hsecond hout fun r' hr' _ => ?_
      exact List.rel_of_pairwise_cons h.apart hr'
    · exact ih h.tail hlast hle fun r' hr' => hfrom r' (List.mem_cons_of_mem _ hr')

theorem substituteFrom_snd (last : Nat) (references : List Reference) :
    (e.substituteFrom names start stop last references).2 =
      (references.filter (Reference.isReplaced names start stop)).length := by
  induction references generalizing last with
  | nil => rfl
  | cons r rs ih =>
    rw [substituteFrom_cons, List.filter_cons]
    split
    · exact congrArg (· + 1) (ih r.stop)
    · exact ih last

theorem chars_substituteFrom {references : List Reference} {last : Nat}
    (h : Text.Cut e.content stop last
      ((references.filter (Reference.isReplaced names start stop)).map Reference.range)) (depth : Nat) :
    let replaced := references.filter (Reference.isReplaced names start stop)
    (e.substituteFrom names start stop last references).1.chars depth =
      (Text.weave (Text.gaps e.content stop last (replaced.map Reference.range))
        (replaced.map (Reference.rewritten names))).toList := by
  induction references generalizing last depth with
  | nil =>
    have hpiece := e.chars_piece depth last stop []
    rw [Text.slice_of_le h.boundary.2.2, List.append_nil] at hpiece
    rw [substituteFrom, hpiece]
    simp [Code.chars, Text.gaps, Text.weave]
  | cons r rs ih =>
    rw [substituteFrom_cons, List.filter_cons]
    rw [List.filter_cons] at h
    by_cases hr : r.isReplaced names start stop = true
    · rw [if_pos hr] at h
      rw [if_pos hr, if_pos hr]
      cases h with
      | cons _ _ hbefore _ hrest =>
        change last ≤ r.start at hbefore
        rw [chars_piece, Text.slice_of_le hbefore, Code.chars, @ih r.stop hrest]
        simp [Fragment.chars, Text.gaps, Text.weave, Reference.range]
    · rw [if_neg hr] at h
      rw [if_neg hr, if_neg hr]
      exact ih h depth

theorem code_of_not_replaced (hscript : e.isStatic = false)
    (hnone : ∀ references, Script.references? e.content = some references →
      references.filter (Reference.isReplaced names 0 e.content.utf8ByteSize) = []) :
    e.code names = [.mapped e.content e.loc none] := by
  have hsubstituted : e.substituted? names = none := by
    rw [substituted?_eq]
    split
    · rfl
    · cases hreferences : Script.references? e.content with
      | none => rfl
      | some references =>
        rw [Option.bind_some, substitute, substituteFrom_snd, hnone references hreferences]
        rfl
  rw [code, hscript, hsubstituted]
  rfl

/-- In a piece of an expression exactly the references inside of it that have a replacement are replaced;
the text between them is that of the expression. If none is, an expression is written as it is. -/
theorem substitute_splices {references : List Reference} (horder : Reference.InOrder e.content references)
    (hstart : Text.isBoundary e.content start = true) (hstop : Text.isBoundary e.content stop = true)
    (hle : start ≤ stop) :
    let replaced := references.filter (Reference.isReplaced names start stop)
    let ranges := replaced.map Reference.range
    let gaps := Text.gaps e.content stop start ranges
    Text.weave gaps (ranges.map fun range => Text.slice e.content range.1 range.2) =
      Text.slice e.content start stop ∧
    (e.substitute names references start stop).1.render =
      Text.weave gaps (replaced.map (Reference.rewritten names)) ∧
    (e.substitute names references start stop).2 = replaced.length ∧
    (e.isStatic = false →
      (∀ rs, Script.references? e.content = some rs →
        rs.filter (Reference.isReplaced names 0 e.content.utf8ByteSize) = []) →
      (e.code names).render = e.content) := by
  intro replaced ranges gaps
  have hcut : Text.Cut e.content stop start ranges :=
    e.cut_of_inOrder horder hstop hstart hle fun _ _ h => h
  refine ⟨Text.weave_gaps hcut, ?_, e.substituteFrom_snd start references, fun hscript hnone => ?_⟩
  · rw [Code.render, substitute, e.chars_substituteFrom hcut 0, String.ofList_toList]
  · rw [e.code_of_not_replaced hscript hnone, Code.render]
    simp [Code.chars, Fragment.chars]

def called : Expression := ofScript "é(x, \x7bx\x7d, z)"

def calledReferences : List Reference :=
  [⟨"é", 0, 2, false⟩, ⟨"x", 3, 4, false⟩, ⟨"x", 7, 8, true⟩, ⟨"z", 11, 12, false⟩]

def calledNames : Renaming := [("z", none), ("x", some "_for_item0.value"), ("é", some "f")]

/-- Behind the first variable of `é(x, {x}, z)`, the two references to the item of a loop are replaced. -/
theorem substitute_splices_called :
    Reference.InOrder called.content calledReferences ∧
    (called.substitute calledNames calledReferences 2 13).1.render =
      "(_for_item0.value, \x7bx: _for_item0.value\x7d, z)" ∧
    (called.substitute calledNames calledReferences 2 13).2 = 2 := by
  have horder : Reference.InOrder called.content calledReferences :=
    ⟨by decide +kernel, by decide +kernel, by decide +kernel⟩
  obtain ⟨-, htext, hcount, -⟩ := @substitute_splices called calledNames 2 13 _ horder
    (by decide +kernel) (by decide +kernel) (by decide)
  refine ⟨horder, ?_, ?_⟩
  · rw [htext]
    decide +kernel
  · rw [hcount]
    decide +kernel

end Expression

end JsxTemplate
