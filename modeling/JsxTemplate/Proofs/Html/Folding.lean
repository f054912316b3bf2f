import JsxTemplate.Proofs.Lowering.Texts

/-!
# Texts in markup

A browser reads character references in markup. In an attribute every ampersand is escaped, so the value
is read as it was (`reads_escapeAttr`). In a text only the angles are. So a text is read as it was exactly
if there are no references in it (`reads_escapeText_iff`).
-/

namespace JsxTemplate

namespace Html

/-- A character that a reference cannot go beyond. -/
def isMark (c : Char) : Bool := ['&', '<', '>', '"'].contains c

def markNames : List (List Char × Char) :=
  [("amp;".toList, '&'), ("lt;".toList, '<'), ("gt;".toList, '>'), ("quot;".toList, '"')]

/-- How character references are read. There are many names, and other rules for attributes than for
texts, but the marks have the same names everywhere. -/
structure References where
  /-- What a reference stands for, and how long it is, from what stands behind an ampersand up to the next
  mark. -/
  read : List Char → Option (List Char × Nat)
  shorter : ∀ {run given n}, read run = some (given, n) → given.length ≤ n ∧ n ≤ run.length
  marks : ∀ e ∈ markNames, ∀ rest, read (e.1 ++ rest) = some ([e.2], e.1.length)

namespace References

/-- No references but those to marks. -/
def ofMarks : References where
  read run := (markNames.find? (·.1.isPrefixOf run)).map fun e => ([e.2], e.1.length)
  shorter := by
    intro run given n h
    obtain ⟨e, he, h⟩ := Option.map_eq_some_iff.mp h
    obtain ⟨rfl, rfl⟩ := Prod.mk.inj h
    have hprefix := List.find?_some he
    have hlength := (List.isPrefixOf_iff_prefix.mp hprefix).length_le
    have hname : ∀ e ∈ markNames, 1 ≤ e.1.length := by decide
    exact ⟨hname e (List.mem_of_find?_eq_some he), hlength⟩
  marks := by
    intro e he rest
    simp only [markNames, List.mem_cons, List.not_mem_nil, or_false] at he
    rcases he with rfl | rfl | rfl | rfl <;> rfl

def runOf (cs : List Char) : List Char := cs.takeWhile fun c => !isMark c

variable (d : References)

/-- The characters that are read, behind those of a reference that was read. -/
def decodeFrom : Nat → List Char → List Char
  | _, [] => []
  | skip + 1, _ :: cs => decodeFrom skip cs
  | 0, c :: cs =>
    if c = '&' then
      match d.read (runOf cs) with
      | some (given, n) => given ++ decodeFrom n cs
      | none => c :: decodeFrom 0 cs
    else c :: decodeFrom 0 cs

def decode (s : String) : String := String.ofList (d.decodeFrom 0 s.toList)

/-- Whether markup is read as a text: as far as the delimiter behind it, which does not occur in it. -/
def Reads (delimiter : Char) (markup text : String) : Prop :=
  delimiter ∉ markup.toList ∧ d.decode markup = text

/-- Whether no ampersand of a text starts a reference. -/
def IsFree (cs : List Char) : Prop := ∀ front rest, cs = front ++ '&' :: rest → d.read (runOf rest) = none

variable {d}

theorem decodeFrom_of_read {cs given : List Char} {n : Nat} (h : d.read (runOf cs) = some (given, n)) :
    d.decodeFrom 0 ('&' :: cs) = given ++ d.decodeFrom n cs := by
  rw [decodeFrom, if_pos rfl, h]

theorem decodeFrom_of_none {cs : List Char} (h : d.read (runOf cs) = none) :
    d.decodeFrom 0 ('&' :: cs) = '&' :: d.decodeFrom 0 cs := by
  rw [decodeFrom, if_pos rfl, h]

theorem decodeFrom_of_ne {c : Char} (h : c ≠ '&') (cs : List Char) :
    d.decodeFrom 0 (c :: cs) = c :: d.decodeFrom 0 cs := by
  rw [decodeFrom, if_neg h]

theorem decodeFrom_append (front rest : List Char) :
    d.decodeFrom front.length (front ++ rest) = d.decodeFrom 0 rest := by
  induction front with
  | nil => rfl
  | cons c front ih => exact ih

theorem decodeFrom_mark {e : List Char × Char} (he : e ∈ markNames) (rest : List Char) :
    d.decodeFrom 0 ('&' :: e.1 ++ rest) = e.2 :: d.decodeFrom 0 rest := by
  have hname : ∀ e ∈ markNames, ∀ c ∈ e.1, isMark c = false := by simp [markNames, isMark]
  have hrun : runOf (e.1 ++ rest) = e.1 ++ runOf rest :=
    List.takeWhile_append_of_pos fun c hc => by rw [hname e he c hc]; rfl
  have hread : d.read (runOf (e.1 ++ rest)) = some ([e.2], e.1.length) := hrun ▸ d.marks e he (runOf rest)
  rw [List.cons_append, decodeFrom_of_read hread, decodeFrom_append]
  rfl

/-! ## Attributes -/

theorem decodeFrom_flatMap_attr (cs : List Char) : d.decodeFrom 0 (cs.flatMap escapeAttrChar) = cs := by
  induction cs with
  | nil => rfl
  | cons c cs ih =>
    rw [List.flatMap_cons]
    by_cases hquote : c = '"'
    · subst hquote
      have hmark := decodeFrom_mark (d := d) (e := ("quot;".toList, '"')) (by decide)
        (cs.flatMap escapeAttrChar)
      rw [ih] at hmark
      exact hmark
    · by_cases hamp : c = '&'
      · subst hamp
        have hmark := decodeFrom_mark (d := d) (e := ("amp;".toList, '&')) (by decide)
          (cs.flatMap escapeAttrChar)
        rw [ih] at hmark
        exact hmark
      · have hself : escapeAttrChar c = [c] := by simp [escapeAttrChar, hquote, hamp]
        rw [hself, List.singleton_append, decodeFrom_of_ne hamp, ih]

theorem reads_escapeAttr (s : String) : d.Reads '"' (escapeAttr s) s := by
  constructor
  · rw [escapeAttr, String.toList_ofList, List.mem_flatMap]
    rintro ⟨c, -, hc⟩
    rw [escapeAttrChar] at hc
    split at hc
    · exact absurd hc (by decide)
    · next hquote =>
      split at hc
      · exact absurd hc (by decide)
      · exact hquote (beq_iff_eq.mpr (List.mem_singleton.mp hc).symm)
  · rw [decode, escapeAttr, String.toList_ofList, decodeFrom_flatMap_attr, String.ofList_toList]

/-! ## Texts -/

theorem runOf_flatMap_text (cs : List Char) : runOf (cs.flatMap escapeTextChar) = runOf cs := by
  induction cs with
  | nil => rfl
  | cons c cs ih =>
    rw [List.flatMap_cons, escapeTextChar]
    split
    · next h => rw [eq_of_beq h]; rfl
    · split
      · next h => rw [eq_of_beq h]; rfl
      · rw [List.singleton_append, runOf, runOf, List.takeWhile_cons, List.takeWhile_cons]
        exact if_congr Iff.rfl (congrArg _ ih) rfl

/-- Since a reference never goes beyond a mark, it is read in the same way if the angles are escaped. -/
theorem decodeFrom_flatMap_text {cs : List Char} {n : Nat} (hn : n ≤ (runOf cs).length) :
    d.decodeFrom n (cs.flatMap escapeTextChar) = d.decodeFrom n cs := by
  induction cs generalizing n with
  | nil => rfl
  | cons c cs ih =>
    rw [List.flatMap_cons]
    cases n with
    | succ n =>
      rw [runOf, List.takeWhile_cons] at hn
      split at hn
      · next hmark =>
        have hself : escapeTextChar c = [c] := by
          simp only [isMark, List.contains_cons, Bool.not_eq_true', Bool.or_eq_false_iff] at hmark
          simp [escapeTextChar, hmark.2.1, hmark.2.2.1]
        rw [hself]
        exact ih (Nat.le_of_succ_le_succ hn)
      · exact absurd hn (Nat.not_succ_le_zero n)
    | zero =>
      have ih₀ := ih (Nat.zero_le _)
      by_cases hlt : c = '<'
      · subst hlt
        rw [decodeFrom_of_ne (by decide), ← ih₀]
        exact decodeFrom_mark (e := ("lt;".toList, '<')) (by decide) _
      by_cases hgt : c = '>'
      · subst hgt
        rw [decodeFrom_of_ne (by decide), ← ih₀]
        exact decodeFrom_mark (e := ("gt;".toList, '>')) (by decide) _
      have hself : escapeTextChar c = [c] := by simp [escapeTextChar, hlt, hgt]
      rw [hself, List.singleton_append]
      by_cases hamp : c = '&'
      · subst hamp
        have hrun := runOf_flatMap_text cs
        cases hread : d.read (runOf cs) with
        | none => rw [decodeFrom_of_none (hrun ▸ hread), decodeFrom_of_none hread, ih₀]
        | some reference =>
          obtain ⟨given, n⟩ := reference
          rw [decodeFrom_of_read (hrun ▸ hread), decodeFrom_of_read hread, ih (d.shorter hread).2]
      · rw [decodeFrom_of_ne hamp, decodeFrom_of_ne hamp, ih₀]

theorem length_of_read {cs given : List Char} {n : Nat} (h : d.read (runOf cs) = some (given, n)) :
    given.length ≤ n ∧ n ≤ cs.length :=
  ⟨(d.shorter h).1, Nat.le_trans (d.shorter h).2 (List.takeWhile_prefix _).length_le⟩

theorem length_decodeFrom (n : Nat) (cs : List Char) : (d.decodeFrom n cs).length ≤ cs.length - n := by
  induction cs generalizing n with
  | nil => exact Nat.zero_le _
  | cons c cs ih =>
    cases n with
    | succ n =>
      rw [List.length_cons, Nat.add_sub_add_right]
      exact ih n
    | zero =>
      have ih₀ := ih 0
      by_cases hamp : c = '&'
      · subst hamp
        cases hread : d.read (runOf cs) with
        | none => rw [decodeFrom_of_none hread]; simpa using ih₀
        | some reference =>
          obtain ⟨given, n⟩ := reference
          have hshorter := length_of_read hread
          have hbehind := ih n
          rw [decodeFrom_of_read hread, List.length_append, List.length_cons]
          omega
      · rw [decodeFrom_of_ne hamp]; simpa using ih₀

/-- A text is read as it is exactly if there are no references in it: each of them would make it shorter. -/
theorem decodeFrom_eq_iff (cs : List Char) : d.decodeFrom 0 cs = cs ↔ d.IsFree cs := by
  induction cs with
  | nil => exact iff_of_true rfl fun front rest h => by simp at h
  | cons c cs ih =>
    have hfree : d.IsFree (c :: cs) ↔ (c = '&' → d.read (runOf cs) = none) ∧ d.IsFree cs := by
      constructor
      · exact fun h => ⟨fun hc => h [] cs (by rw [hc]; rfl), fun front rest hrest => h (c :: front) rest (by rw [hrest]; rfl)⟩
      · rintro ⟨hself, h⟩ front rest hrest
        cases front with
        | nil => obtain ⟨rfl, rfl⟩ := List.cons.inj hrest; exact hself rfl
        | cons _ front => exact h front rest (List.cons.inj hrest).2
    rw [hfree]
    by_cases hamp : c = '&'
    · subst hamp
      cases hread : d.read (runOf cs) with
      | none => rw [decodeFrom_of_none hread, List.cons_inj_right, ih]; simp
      | some reference =>
        obtain ⟨given, n⟩ := reference
        refine iff_of_false (fun h => ?_) (fun h => nomatch h.1 rfl)
        have hshorter := length_of_read hread
        have hbehind := length_decodeFrom (d := d) n cs
        have hlength := congrArg List.length h
        rw [decodeFrom_of_read hread, List.length_append, List.length_cons] at hlength
        omega
    · rw [decodeFrom_of_ne hamp, List.cons_inj_right, ih]
      simp [hamp]

theorem reads_escapeText_iff (s : String) : d.Reads '<' (escapeText s) s ↔ d.IsFree s.toList := by
  have hangle : '<' ∉ (escapeText s).toList := by
    rw [escapeText, String.toList_ofList, List.mem_flatMap]
    rintro ⟨c, -, hc⟩
    rw [escapeTextChar] at hc
    split at hc
    · exact absurd hc (by decide)
    · next hlt =>
      split at hc
      · exact absurd hc (by decide)
      · exact hlt (beq_iff_eq.mpr (List.mem_singleton.mp hc).symm)
  have hdecode : d.decode (escapeText s) = s ↔ d.IsFree s.toList := by
    rw [decode, escapeText, String.toList_ofList, decodeFrom_flatMap_text (Nat.zero_le _), ← decodeFrom_eq_iff,
      ← String.toList_inj, String.toList_ofList]
  rw [Reads, hdecode]
  exact and_iff_right hangle

end References

theorem join_map_escapeText (ls : List String) : String.join (ls.map escapeText) = escapeText (String.join ls) := by
  rw [← String.toList_inj, escapeText, String.toList_ofList]
  induction ls with
  | nil => rfl
  | cons s ls ih => simp_all [String.join_cons, escapeText]

end Html

open Html

namespace Lower

variable {c : Context}

theorem inner_of_literals {visit : Lower Unit} {children : List Visited} {literals : List String}
    (hplain : ∀ e ∈ children.filterMap groupValue?, (!e.isStatic && Script.containsElement e.content) = false)
    (hliterals : (children.filterMap groupValue?).mapM Expression.literal? = some literals) :
    (lowerTextContainer visit children c).2.block = c.block ∧
      (takeChildTemplates (lowerTextContainer visit children c).2).1 = escapeText (String.join literals) := by
  obtain ⟨seen, hgroup, -⟩ := groupValues_eq children c
  simp only [lowerTextContainer, runText, prepareContainer, run_bind, hgroup]
  rw [if_neg, hliterals]
  · exact ⟨rfl, join_map_escapeText literals⟩
  · rw [Bool.not_eq_true, List.any_eq_false]
    exact fun e he => Bool.eq_false_iff.mp (hplain e he)

theorem inner_of_literal {d : Directive} {tag : Tag} {children : List Node} {text : String}
    (htag : isVoidTag tag.name = false) (hvalue : (d.exp.getD ⟨"", true, d.loc⟩).literal? = some text) :
    (innerText d tag children c).2.block = c.block ∧
      (takeChildTemplates (innerText d tag children c).2).1 = escapeText text := by
  have hrun : ∃ c', contentValue d children .textNoExpression .textWithChildren c =
      (d.exp.getD ⟨"", true, d.loc⟩, c') ∧ c'.block = c.block := by
    cases hexp : d.exp <;> cases hchildren : children.isEmpty <;>
      simp only [contentValue, hexp, hchildren] <;> exact ⟨_, rfl, rfl⟩
  obtain ⟨c', hrun, hblock⟩ := hrun
  rw [innerText, run_bind, hrun]
  dsimp only
  rw [htag, if_neg Bool.false_ne_true, hvalue]
  exact ⟨hblock, String.empty_append⟩

theorem writeProperties_of_foldable {p : Property} {keys : List String} (h : p.isFoldable keys = true) (tag : Tag)
    (ps : List Property) (cursor : Cursor) :
    (writeProperties tag (p :: ps) keys cursor c).1 = p.markup ++ (writeProperties tag ps keys cursor c).1 := by
  rw [writeProperties, if_pos h]
  rfl

end Lower

/-- Markup that is made from literals is read as they were, where they have no references in them. A static
attribute is always read as it was. -/
theorem folded_markup_read_back (d : References) :
    (∀ (visit : Lower Unit) (children : List Visited) (literals : List String) (c : Context),
      (∀ e ∈ children.filterMap Lower.groupValue?, (!e.isStatic && Script.containsElement e.content) = false) →
      (children.filterMap Lower.groupValue?).mapM Expression.literal? = some literals →
      let c' := (Lower.lowerTextContainer visit children c).2
      c'.block = c.block ∧
        (d.Reads '<' (Lower.takeChildTemplates c').1 (String.join literals) ↔
          d.IsFree (String.join literals).toList)) ∧
    (∀ (directive : Directive) (tag : Tag) (children : List Node) (text : String) (c : Context),
      isVoidTag tag.name = false →
      (directive.exp.getD ⟨"", true, directive.loc⟩).literal? = some text →
      let c' := (Lower.innerText directive tag children c).2
      c'.block = c.block ∧ (d.Reads '<' (Lower.takeChildTemplates c').1 text ↔ d.IsFree text.toList)) ∧
    ∀ (p : Property) (keys : List String), p.isFoldable keys = true → ∃ value : String,
      p.values.map Expression.content = [value] ∧ d.Reads '"' (escapeAttr value) value ∧
        ∀ tag ps cursor (c : Context), (Lower.writeProperties tag (p :: ps) keys cursor c).1 =
          " " ++ p.key.content ++ (if value.isEmpty then "" else "=\"" ++ escapeAttr value ++ "\"") ++
            (Lower.writeProperties tag ps keys cursor c).1 := by
  refine ⟨fun visit children literals c hplain hliterals => ?_, fun directive tag children text c htag hvalue => ?_,
    fun p keys hfold => ?_⟩
  · obtain ⟨hblock, hinner⟩ := Lower.inner_of_literals hplain hliterals
    exact ⟨hblock, hinner ▸ References.reads_escapeText_iff _⟩
  · obtain ⟨hblock, hinner⟩ := Lower.inner_of_literal htag hvalue
    exact ⟨hblock, hinner ▸ References.reads_escapeText_iff _⟩
  · obtain ⟨value, hvalue⟩ : ∃ value, p.values = [value] := by
      rw [Property.isFoldable, Bool.and_eq_true] at hfold
      have hvalues := hfold.2
      split at hvalues
      · next value hvalue => exact ⟨value, hvalue⟩
      · cases hvalues
    refine ⟨value.content, by rw [hvalue]; rfl, References.reads_escapeAttr _, fun tag ps cursor c => ?_⟩
    rw [Lower.writeProperties_of_foldable hfold, Property.markup, hvalue]
    rfl

/-- An ampersand in a text, an angle in a text and a reference in an attribute are read as they were. -/
theorem folded_markup_read_back_of_marks :
    let d := References.ofMarks
    let c := Context.ofTemplate ⟨true, fun _ => false⟩ ⟨"", [], .stub⟩
    let child := Visited.node [0] (.expression (.ofScript "'a && b'") [] .stub)
    let directive : Directive := ⟨"text", "v-text", none, some (.ofScript "'<b>'"), [], .stub⟩
    let p : Property := ⟨.ofString "title", [.ofString "&lt;"], none, false, false, none, false, []⟩
    d.Reads '<' (Lower.takeChildTemplates (Lower.lowerTextContainer (pure ()) [child] c).2).1 "a && b" ∧
      d.Reads '<' (Lower.takeChildTemplates (Lower.innerText directive ⟨"p", .element, [], false, .stub⟩ [] c).2).1
        "<b>" ∧
      p.markup = " title=\"&amp;lt;\"" ∧ d.Reads '"' "&amp;lt;" "&lt;" := by
  intro d c child directive p
  obtain ⟨htext, hdirective, hattribute⟩ := folded_markup_read_back d
  have hchild := htext (pure ()) [child] ["a && b"] c (by decide +kernel) (by decide +kernel)
  have hdirective := hdirective directive ⟨"p", .element, [], false, .stub⟩ [] "<b>" c (by decide)
    (by decide +kernel)
  obtain ⟨value, hvalue, hread, -⟩ := hattribute p [] rfl
  obtain rfl := (List.cons.inj hvalue).1
  exact ⟨hchild.2.mpr ((References.decodeFrom_eq_iff _).mp (by decide +kernel)),
    hdirective.2.mpr ((References.decodeFrom_eq_iff _).mp (by decide +kernel)), by decide +kernel, hread⟩

/-- A reference in a literal is read as the mark that it stands for. -/
theorem reference_in_literal_read :
    let child : Node := .expression (.ofScript "\"&lt;\"") [] .stub
    let t : Template := ⟨"", [.element ⟨"p", .element, [], false, .stub⟩ [child]], .stub⟩
    (t.lower ⟨true, fun _ => false⟩ .none).templates = ["<p>&lt;</p>"] ∧
      ∀ d : References, d.decode "&lt;" = "<" := by
  refine ⟨by decide +kernel, fun d => ?_⟩
  exact congrArg String.ofList (References.decodeFrom_mark (d := d) (e := ("lt;".toList, '<')) (by decide) [])

end JsxTemplate
