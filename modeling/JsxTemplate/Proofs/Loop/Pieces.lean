import JsxTemplate.Proofs.Loop.Separator

/-!
# The pieces of the head of a loop

The head of a loop is cut into its names and its source. The names are read as the parameters of a function,
and each is the piece of the text that the reader gives it; `ReadsInOrder` says what is expected of the reader.
Only one kind of head cannot be cut: one whose names are nothing but blanks that part no words.
-/

namespace JsxTemplate.LoopHead

open Text

variable {e : Expression} {names inner left right : List Char} {i k : Nat}

/-- Whether the reader gives the parameters of a function ranges that stand one behind the other between the
parentheses. -/
def ReadsInOrder (params : String) : Prop :=
  ∀ spans, parameterSpans? (wrap params) = some spans →
    Cut (wrap params) (1 + byteLength params.toList) 1 (spans.map fun span => (span.start, span.stop))

/-- What is read as parameters is a piece of the names. -/
theorem insideParens_eq (names : List Char) : ∃ left right,
    names = left ++ (insideParens names).1 ++ right ∧ byteLength left = (insideParens names).2 := by
  obtain ⟨blanks, hcore⟩ := List.rdropWhile_prefix isBlank (trimLeft names)
  change trimRight (trimLeft names) ++ blanks = _ at hcore
  have hnames : names = names.takeWhile isBlank ++ trimRight (trimLeft names) ++ blanks := by
    rw [List.append_assoc, hcore, trimLeft, List.takeWhile_append_dropWhile]
  -- an opening parenthesis is passed first, and then a closing one
  have hopen : ∃ core before, insideParens names =
      (if core.getLast? == some ')' then (core.dropLast, before) else (core, before)) ∧
      ∃ left, names = left ++ core ++ blanks ∧ byteLength left = before := by
    unfold insideParens
    generalize trimRight (trimLeft names) = core at hnames ⊢
    dsimp only
    split
    · next cs =>
      refine ⟨cs, _, rfl, names.takeWhile isBlank ++ ['('], by simpa using hnames, ?_⟩
      rw [byteLength_append]
      rfl
    · exact ⟨core, _, rfl, _, hnames, rfl⟩
  obtain ⟨core, before, heq, left, hleft, hbefore⟩ := hopen
  rw [heq]
  split
  · next hclose =>
    have hlast := List.dropLast_append_getLast? _ (Option.mem_def.mpr (beq_iff_eq.mp hclose))
    refine ⟨left, ')' :: blanks, ?_, hbefore⟩
    rw [hleft]
    nth_rewrite 1 [← hlast]
    simp
  · exact ⟨left, blanks, hleft, hbefore⟩

/-! ## From the parameters to the names -/

theorem toList_wrap (inner : List Char) :
    (wrap (String.ofList inner)).toList = ('(' :: inner) ++ ") => 0".toList := by
  simp [wrap]

section

variable (hs : e.content.toList = left ++ inner ++ right)

include hs

theorem isBoundary_of_wrap {n : Nat} (h : isBoundary (wrap (String.ofList inner)) n = true) (hpos : 1 ≤ n)
    (hle : n ≤ 1 + byteLength inner) : isBoundary e.content (byteLength left + n - 1) = true := by
  have hstop : isBoundary (wrap (String.ofList inner)) (1 + byteLength inner) = true :=
    isBoundary_iff.mpr ⟨_, _, toList_wrap inner, rfl⟩
  obtain ⟨xs, ys, zs, hxs, rfl, hlength⟩ := exists_between h hstop hle
  obtain ⟨heq, -⟩ := append_inj_of_byteLength (hxs.symm.trans (toList_wrap inner)) hlength
  cases xs with
  | nil => cases hpos
  | cons c xs =>
    obtain ⟨rfl, rfl⟩ := List.cons.inj heq
    refine isBoundary_iff.mpr ⟨left ++ xs, ys ++ right, by simp [hs], ?_⟩
    rw [byteLength_append, byteLength, Nat.add_comm (Char.utf8Size _), ← Nat.add_assoc]
    rfl

theorem cut_of_wrap {start : Nat} {ranges : List (Nat × Nat)}
    (h : Cut (wrap (String.ofList inner)) (1 + byteLength inner) start ranges) (hpos : 1 ≤ start) :
    Cut e.content (byteLength left + byteLength inner) (byteLength left + start - 1)
      (ranges.map fun range => (byteLength left + range.1 - 1, byteLength left + range.2 - 1)) := by
  induction h with
  | nil hstart hstop hle =>
    have hend := isBoundary_of_wrap hs hstop (by omega) (Nat.le_refl _)
    rw [show byteLength left + (1 + byteLength inner) - 1 = byteLength left + byteLength inner by omega] at hend
    exact .nil (isBoundary_of_wrap hs hstart hpos hle) hend (by omega)
  | cons hstart hfirst hbefore hrange hrest ih =>
    obtain ⟨-, -, hle⟩ := hrest.boundary
    exact .cons (isBoundary_of_wrap hs hstart hpos (by omega))
      (isBoundary_of_wrap hs hfirst (by omega) (by omega)) (by dsimp only; omega) (by dsimp only; omega)
      (ih (by omega))

end

theorem cut_widen {s : String} {start stop stop' : Nat} {ranges : List (Nat × Nat)} (h : Cut s stop start ranges)
    (hstop : isBoundary s stop' = true) (hle : stop ≤ stop') : Cut s stop' 0 ranges := by
  have hzero : isBoundary s 0 = true := isBoundary_iff.mpr ⟨[], s.toList, rfl, rfl⟩
  have hwide : Cut s stop' start ranges := by
    induction h with
    | nil hstart _ hstart' => exact .nil hstart hstop (by omega)
    | cons hstart hfirst hbefore hrange _ ih => exact .cons hstart hfirst hbefore hrange ih
  cases hwide with
  | nil hstart hstop hle => exact .nil hzero hstop (Nat.zero_le _)
  | cons hstart hfirst hbefore hrange hrest => exact .cons hzero hfirst (Nat.zero_le _) hrange hrest

/-! ## Cutting a head -/

theorem isInverted_iff : isInverted names = true ↔
    0 < byteLength names ∧ isEmptyOrBlank (String.ofList names) = true := by
  have hpos : 0 < byteLength names ↔ names ≠ [] := by
    rw [Nat.pos_iff_ne_zero, Ne, Ne, not_iff_not]
    exact ⟨eq_nil_of_byteLength, fun h => h ▸ rfl⟩
  rw [hpos]
  simp [isInverted, isEmptyOrBlank]

/-- The names of a loop are the pieces of a text in some ranges, of which only the first three count. -/
def IsNamedBy (e : Expression) (ranges : List (Nat × Nat)) (head : LoopHead) : Prop :=
  let name := fun n => ranges[n]?.map fun range => e.sub range.1 range.2
  head.value = name 0 ∧ head.key = name 1 ∧ head.index = name 2

theorem cut_of_ofParts? {rest : List Char} (hs : e.content.toList = names ++ rest)
    (hread : ReadsInOrder (String.ofList (insideParens names).1)) {head : LoopHead}
    (h : ofParts? e names k = some head) :
    head.source = e.sub k (byteLength (trimRight e.content.toList)) ∧
    ∃ ranges, Cut e.content (byteLength names) 0 ranges ∧ IsNamedBy e ranges head := by
  obtain ⟨left, right, hnames, hleft⟩ := insideParens_eq names
  have hstop : isBoundary e.content (byteLength names) = true := isBoundary_iff.mpr ⟨names, rest, hs, rfl⟩
  have hinner : byteLength left + byteLength (insideParens names).1 ≤ byteLength names := by
    conv_rhs => rw [hnames, byteLength_append, byteLength_append]
    omega
  have hs : e.content.toList = left ++ (insideParens names).1 ++ (right ++ rest) := by
    rw [hs]
    nth_rewrite 1 [hnames]
    simp
  rw [ofParts?] at h
  generalize insideParens names = r at h hread hleft hinner hs
  obtain ⟨inner, before⟩ := r
  obtain rfl : byteLength left = before := hleft
  dsimp only at h
  split at h
  · obtain rfl := Option.some.inj h
    exact ⟨rfl, [], .nil (isBoundary_iff.mpr ⟨[], _, rfl, rfl⟩) hstop (Nat.zero_le _), rfl, rfl, rfl⟩
  · obtain ⟨spans, hspans, h⟩ := Option.bind_eq_some_iff.mp h
    obtain rfl := Option.some.inj h
    have hcut := hread spans hspans
    rw [String.toList_ofList] at hcut
    refine ⟨rfl, _, cut_widen (cut_of_wrap hs hcut (Nat.le_refl 1)) hstop hinner, ?_⟩
    simp [IsNamedBy, Function.comp_def]

/-- The names that are read as the parameters of a function, if all names end at a byte. -/
def parametersUpTo (e : Expression) (namesStop : Nat) : String :=
  String.ofList (insideParens (slice e.content 0 namesStop).toList).1

/-- The head of a loop can be cut, unless its names are only blanks that part no words. Its source is a piece of
the text behind the separator, or nothing if only blanks are there. Its names are pieces in front of the
separator, each behind the one before. -/
theorem ofExpression_cuts_pieces (e : Expression)
    (hread : ∀ i k, split? e.content.toList 0 = some (i, k) → ReadsInOrder (parametersUpTo e i)) :
    (∀ fault, ofExpression e = .error fault ↔ fault = .inverted ∧ ∃ i k,
      split? e.content.toList 0 = some (i, k) ∧ 0 < i ∧ isEmptyOrBlank (slice e.content 0 i) = true) ∧
    ∀ head, ofExpression e = .ok (some head) → ∃ i k stop ranges,
      split? e.content.toList 0 = some (i, k) ∧ i < k ∧
      isBoundary e.content k = true ∧ isBoundary e.content stop = true ∧
      head.source = e.sub k stop ∧ (k ≤ stop ∨ head.source.content = "") ∧
      Cut e.content i 0 ranges ∧ IsNamedBy e ranges head := by
  obtain ⟨hfirst, -, hplaces⟩ := split?_finds_first_separator e.content
  cases hsplit : split? e.content.toList 0 with
  | none => simp [ofExpression, hsplit]
  | some r =>
    obtain ⟨i, k⟩ := r
    obtain ⟨hi, hk, hlt⟩ := hplaces i k ((hfirst i k).mp hsplit).1
    obtain ⟨names, rest, hs, rfl⟩ := isBoundary_iff.mp hi
    have hnames : slice e.content 0 (byteLength names) = String.ofList names := @slice_eq _ [] names rest hs
    have hrun : ofExpression e = if isInverted names then .error .inverted else .ok (ofParts? e names k) := by
      simp [ofExpression, hsplit, hnames]
    rw [hrun]
    refine ⟨fun fault => ⟨fun h => ?_, ?_⟩, fun head hhead => ?_⟩
    · split at h
      · next hinverted => exact ⟨(Except.error.inj h).symm, _, k, rfl, hnames ▸ isInverted_iff.mp hinverted⟩
      · cases h
    · rintro ⟨rfl, _, _, hsplit', hinverted⟩
      obtain ⟨rfl, rfl⟩ := Prod.mk.inj (Option.some.inj hsplit')
      exact if_pos (isInverted_iff.mpr (hnames ▸ hinverted))
    · have hread := hread _ k hsplit
      rw [parametersUpTo, hnames, String.toList_ofList] at hread
      have hparts : ofParts? e names k = some head := by
        split at hhead
        · cases hhead
        · exact Except.ok.inj hhead
      obtain ⟨hsource, ranges, hranges⟩ := cut_of_ofParts? hs hread hparts
      obtain ⟨blanks, htrim⟩ := List.rdropWhile_prefix isBlank e.content.toList
      have hstop : isBoundary e.content (byteLength (trimRight e.content.toList)) = true :=
        isBoundary_iff.mpr ⟨_, blanks, htrim.symm, rfl⟩
      refine ⟨_, k, _, ranges, rfl, hlt, hk, hstop, hsource, ?_, hranges⟩
      refine (Nat.lt_or_ge _ k).symm.imp_right fun hbefore => ?_
      rw [hsource, Expression.sub, slice, slice?, if_neg (Nat.not_le.mpr hbefore)]
      rfl

/-- A loop with two names. -/
theorem ofExpression_cuts_pieces_pair :
    let e : Expression := ⟨"(a, é) in list", false, .stub⟩
    (∀ i k, split? e.content.toList 0 = some (i, k) → ReadsInOrder (parametersUpTo e i)) ∧
      ∀ fault, ofExpression e ≠ .error fault := by
  intro e
  have hfound : ∀ {i k}, split? e.content.toList 0 = some (i, k) → i = 7 := by
    have hsplit : split? e.content.toList 0 = some (7, 11) := by decide +kernel
    intro i k h
    exact (Prod.mk.inj (Option.some.inj (h.symm.trans hsplit))).1
  have hread : ∀ i k, split? e.content.toList 0 = some (i, k) → ReadsInOrder (parametersUpTo e i) := by
    intro i k hsplit spans hspans
    have hparams : parameterSpans? (wrap (parametersUpTo e 7)) = some [⟨1, 2⟩, ⟨4, 6⟩] := by decide +kernel
    obtain rfl := hfound hsplit
    obtain rfl := Option.some.inj (hspans.symm.trans hparams)
    refine .cons ?_ ?_ ?_ ?_ (.cons ?_ ?_ ?_ ?_ (.nil ?_ ?_ ?_)) <;> decide +kernel
  refine ⟨hread, fun fault hfault => ?_⟩
  obtain ⟨-, i, k, hsplit, -, hblank⟩ := ((ofExpression_cuts_pieces e hread).1 fault).mp hfault
  rw [hfound hsplit] at hblank
  exact absurd hblank (by decide +kernel)

/-- A no-break space parts no words, but it is trimmed: on the left up to its end, and on the right up to its
start. -/
theorem blank_names_inverted : ofExpression ⟨"\u00a0 in list", false, .stub⟩ = .error .inverted := by
  decide +kernel

end JsxTemplate.LoopHead
