import JsxTemplate.Code.Property
import JsxTemplate.Lowering.Element
import Mathlib.Data.List.Induction

/-!
# Properties of the same key

Of several properties with the same static key the first is kept (`Property.kept`). For classes and styles
the values of the others are added to it, in their order (`Property.gathered`). Keys are compared as they
stand in the template, before what they are written as: a mark before them, the name of a listener, and
what its options add are not looked at. So a property may be dropped although it would be written under
another key.
-/

namespace JsxTemplate.Property

/-- Whether a property has the key of one that stands before its place in a list. -/
def isRepeated (ps : List Property) (e : Property × Nat) : Bool :=
  (ps.take e.2).any fun q => sameKey q e.1

/-- The properties of a list that do not have the key of one before them. -/
def kept (ps : List Property) : List Property :=
  (ps.zipIdx.filter fun e => !isRepeated ps e).map Prod.fst

/-- The values that are given under the key of a property. Only those for classes and styles are put
together. -/
def gathered (ps : List Property) (p : Property) : List Expression :=
  if p.key.isStatic && p.isMerged then (ps.filter (sameKey p)).flatMap values else p.values

def withGathered (ps : List Property) (p : Property) : Property := { p with values := gathered ps p }

/-! ## Keys -/

section

variable {p q r : Property}

theorem sameKey_iff :
    sameKey p q = true ↔ p.key.isStatic = true ∧ q.key.isStatic = true ∧ p.key.content = q.key.content := by
  simp [sameKey, and_assoc]

theorem sameKey_comm : sameKey p q = sameKey q p := by
  rw [Bool.eq_iff_iff, sameKey_iff, sameKey_iff]
  constructor <;> rintro ⟨hp, hq, h⟩ <;> exact ⟨hq, hp, h.symm⟩

theorem sameKey_trans (h : sameKey p q = true) (h' : sameKey q r = true) : sameKey p r = true := by
  rw [sameKey_iff] at *
  exact ⟨h.1, h'.2.1, h.2.2.trans h'.2.2⟩

theorem fixedKey_congr (hkey : sameKey p q = true) (hhandler : p.handler = q.handler)
    (hmodifier : p.modifier = q.modifier) (hsuffix : p.keySuffix = q.keySuffix) :
    p.fixedKey = q.fixedKey := by
  obtain ⟨-, -, hcontent⟩ := sameKey_iff.mp hkey
  simp only [fixedKey, keyMark, hcontent, hhandler, hmodifier, hsuffix]

end

/-! ## What is kept -/

variable (ps : List Property) (p : Property)

theorem isRepeated_append {e : Property × Nat} (h : e.2 ≤ ps.length) :
    isRepeated (ps ++ [p]) e = isRepeated ps e := by
  rw [isRepeated, List.take_append_of_le_length h, isRepeated]

theorem kept_append : kept (ps ++ [p]) = kept ps ++ if ps.any (sameKey · p) then [] else [p] := by
  have hfront : ps.zipIdx.filter (fun e => !isRepeated (ps ++ [p]) e) =
      ps.zipIdx.filter fun e => !isRepeated ps e := by
    refine List.filter_congr fun e he => ?_
    rw [isRepeated_append ps p (Nat.le_of_lt (List.snd_lt_of_mem_zipIdx he))]
  have hlast : isRepeated (ps ++ [p]) (p, ps.length) = ps.any (sameKey · p) := by
    rw [isRepeated_append ps p (Nat.le_refl _), isRepeated, List.take_length]
  rw [kept, List.zipIdx_append, List.filter_append, hfront, List.map_append]
  simp only [List.zipIdx_cons, List.zipIdx_nil, Nat.zero_add, List.filter_cons, hlast, kept, List.filter_nil]
  cases ps.any (sameKey · p) <;> rfl

theorem kept_sublist : (kept ps).Sublist ps := by
  have hsub := (List.filter_sublist (p := fun e => !isRepeated ps e) (l := ps.zipIdx)).map Prod.fst
  rwa [List.zipIdx_map_fst] at hsub

theorem mem_kept {i : Nat} {p : Property} (h : ps[i]? = some p) (hfirst : isRepeated ps (p, i) = false) :
    p ∈ kept ps :=
  List.mem_map.mpr ⟨(p, i), List.mem_filter.mpr ⟨List.mem_zipIdx_iff_getElem?.mpr h, by simp [hfirst]⟩, rfl⟩

theorem pairwise_kept : (kept ps).Pairwise fun q r => sameKey q r = false := by
  induction ps using List.reverseRecOn with
  | nil => exact .nil
  | append_singleton ps p ih =>
    rw [kept_append]
    split
    · rwa [List.append_nil]
    · next hnew =>
      refine List.pairwise_append.mpr ⟨ih, List.pairwise_singleton _ _, fun q hq r hr => ?_⟩
      obtain rfl := List.mem_singleton.mp hr
      simp only [List.any_eq_true, not_exists, not_and, Bool.not_eq_true] at hnew
      exact hnew q ((kept_sublist ps).subset hq)

theorem kept_subset_append (qs : List Property) : kept ps ⊆ kept (ps ++ qs) := by
  induction qs using List.reverseRecOn with
  | nil =>
    rw [List.append_nil]
    exact List.Subset.refl _
  | append_singleton qs q ih =>
    rw [← List.append_assoc, kept_append]
    exact List.subset_append_of_subset_left _ ih

theorem any_kept : (kept ps).any (sameKey · p) = ps.any (sameKey · p) := by
  induction ps using List.reverseRecOn with
  | nil => rfl
  | append_singleton ps q ih =>
    rw [kept_append, List.any_append, List.any_append, ih]
    cases hold : ps.any (sameKey · q) with
    | false => rfl
    | true =>
      obtain ⟨r, hr, hrq⟩ := List.any_eq_true.mp hold
      -- the earlier property stands for the later one
      cases hqp : sameKey q p with
      | false => simp [hqp]
      | true =>
        have hfound : ps.any (sameKey · p) = true := List.any_eq_true.mpr ⟨r, hr, sameKey_trans hrq hqp⟩
        rw [hfound]
        rfl

theorem kept_eq_self (h : ps.Pairwise fun q r => sameKey q r = false) : kept ps = ps := by
  induction ps using List.reverseRecOn with
  | nil => rfl
  | append_singleton ps p ih =>
    obtain ⟨hps, -, hnew⟩ := List.pairwise_append.mp h
    have hnone : ps.any (sameKey · p) = false := by
      simpa [List.any_eq_false] using fun q hq => hnew q hq p (List.mem_singleton_self p)
    rw [kept_append, ih hps, hnone]
    rfl

/-! ## What is gathered -/

theorem gathered_append (q : Property) :
    gathered (ps ++ [p]) q = gathered ps q ++ if sameKey q p && p.isMerged then p.values else [] := by
  by_cases hsame : sameKey q p = true
  · obtain ⟨hq, -, hcontent⟩ := sameKey_iff.mp hsame
    have hmerged : q.isMerged = p.isMerged := by simp only [isMerged, hcontent]
    cases hp : p.isMerged with
    | true => simp [gathered, hq, hmerged, hp, hsame]
    | false => simp [gathered, hmerged, hp]
  · simp [gathered, hsame]

theorem gathered_of_new (hnew : ps.any (sameKey · p) = false) : gathered (ps ++ [p]) p = p.values := by
  have hold : ps.filter (sameKey p) = [] := by
    simpa [List.filter_eq_nil_iff, sameKey_comm (p := p)] using hnew
  rw [gathered]
  split
  · next hp =>
    have hself : sameKey p p = true := sameKey_iff.mpr (by simp_all)
    simp [List.filter_append, hold, hself]
  · rfl

def joined (q : Property) : Property :=
  { q with values := q.values ++ if sameKey q p && p.isMerged then p.values else [] }

theorem joined_of_ne {q : Property} (h : sameKey q p = false) : joined p q = q := by
  simp [joined, h]

theorem addUnique_eq (h : ps.Pairwise fun q r => sameKey q r = false) :
    addUnique p ps = if ps.any (sameKey · p) then ps.map (joined p) else ps ++ [p] := by
  induction ps with
  | nil => rfl
  | cons known ps ih =>
    obtain ⟨hknown, hps⟩ := List.pairwise_cons.mp h
    cases hsame : sameKey known p with
    | true =>
      -- no other property has that key
      have hrest : ps.map (joined p) = ps := by
        refine List.map_congr_left (fun q hq => ?_) |>.trans ps.map_id
        refine joined_of_ne p (Bool.eq_false_iff.mpr fun hqp => ?_)
        have hboth := sameKey_trans hsame (sameKey_comm.trans hqp)
        rw [hknown q hq] at hboth
        cases hboth
      rw [addUnique, if_pos hsame, List.any_cons, hsame, Bool.true_or, if_pos rfl, List.map_cons, hrest]
      cases hmerged : p.isMerged with
      | true => simp [joined, hsame, hmerged]
      | false => simp [joined, hmerged]
    | false =>
      rw [addUnique, hsame, ih hps, List.any_cons, hsame, Bool.false_or, List.map_cons, joined_of_ne p hsame]
      cases ps.any (sameKey · p) <;> rfl

theorem unique_eq : unique ps = (kept ps).map (withGathered ps) := by
  induction ps using List.reverseRecOn with
  | nil => rfl
  | append_singleton ps p ih =>
    have hpairwise : ((kept ps).map (withGathered ps)).Pairwise fun q r => sameKey q r = false :=
      List.pairwise_map.mpr (pairwise_kept ps)
    have hjoined : ∀ q, joined p (withGathered ps q) = withGathered (ps ++ [p]) q := fun q =>
      congrArg (fun values => { q with values }) (gathered_append ps p q).symm
    have hany : ((kept ps).map (withGathered ps)).any (sameKey · p) = ps.any (sameKey · p) := by
      rw [List.any_map]
      exact any_kept ps p
    have hadd : unique (ps ++ [p]) = addUnique p (unique ps) := by simp [unique]
    rw [hadd, ih, addUnique_eq _ p hpairwise, hany, kept_append, List.map_map]
    cases hnew : ps.any (sameKey · p) with
    | true => simpa [Function.comp_def] using fun q _ => hjoined q
    | false =>
      have hold : ∀ q ∈ kept ps, withGathered ps q = withGathered (ps ++ [p]) q := by
        intro q hq
        have hne : sameKey q p = false := by
          simpa using List.any_eq_false.mp hnew q ((kept_sublist ps).subset hq)
        rw [← hjoined]
        exact (joined_of_ne p (q := withGathered ps q) hne).symm
      have hvalues : withGathered (ps ++ [p]) p = p :=
        congrArg (fun values => { p with values }) (gathered_of_new ps p hnew)
      rw [if_neg Bool.false_ne_true, if_neg Bool.false_ne_true, List.map_append, List.map_cons,
        List.map_nil, hvalues, List.map_congr_left hold]

/-! ## What keys are written as -/

/-- Of properties with the same static key the first is kept, with the values of all for classes and
styles. A property is dropped only behind one that is kept and has the same key in the template; the two
are written under the same key if they agree in being listeners, in their marks and in their options. If
this holds for all that have the same key in the template, properties that are written under different keys
are all kept, in their order. -/
theorem properties_dropped_by_bare_key :
    unique ps = (kept ps).map (withGathered ps) ∧ (kept ps).Sublist ps ∧
    (∀ i p, ps[i]? = some p → isRepeated ps (p, i) = false → p ∈ kept ps) ∧
    (∀ i p, ps[i]? = some p → isRepeated ps (p, i) = true → ∃ j q, j < i ∧ ps[j]? = some q ∧
      q ∈ kept ps ∧ sameKey q p = true ∧ (q.handler = p.handler → q.modifier = p.modifier →
        q.keySuffix = p.keySuffix → q.fixedKey = p.fixedKey)) ∧
    ((∀ p ∈ ps, ∀ q ∈ ps, sameKey p q = true → p.fixedKey = q.fixedKey) →
      (ps.map fixedKey).Nodup → kept ps = ps) ∧
    ∀ p, p.key.isStatic = true → ∀ s : Emitter,
      (Emit.propertyKey p s).1 = [.mapped (objectKey p.fixedKey) p.key.loc none] := by
  refine ⟨unique_eq ps, kept_sublist ps, fun i p hp => mem_kept ps hp, fun i p hp hrepeated => ?_,
    fun hkeys hdistinct => ?_, fun p hp s => ?_⟩
  · rw [isRepeated, ← any_kept, List.any_eq_true] at hrepeated
    obtain ⟨q, hq, hsame⟩ := hrepeated
    obtain ⟨j, hj⟩ := List.mem_iff_getElem?.mp ((kept_sublist _).subset hq)
    rw [List.getElem?_take] at hj
    split at hj
    · next hlt =>
      have hmem := kept_subset_append (ps.take i) (ps.drop i) hq
      rw [List.take_append_drop] at hmem
      exact ⟨j, q, hlt, hj, hmem, hsame, fixedKey_congr hsame⟩
    · cases hj
  · refine kept_eq_self ps ((List.pairwise_map.mp hdistinct).imp_of_mem fun hp hq hne => ?_)
    exact Bool.eq_false_iff.mpr fun hsame => hne (hkeys _ hp _ hq hsame)
  · rw [Emit.propertyKey, if_pos hp]
    rfl

/-- Of `class={a} id={b} class={c} id={d}` two properties are left, the first with both values. -/
theorem properties_dropped_by_bare_key_class :
    let property := fun key value => plain ⟨key, true, .stub⟩ (.ofScript value)
    let ps := [property "class" "a", property "id" "b", property "class" "c", property "id" "d"]
    unique ps = [{ property "class" "a" with values := [.ofScript "a", .ofScript "c"] }, property "id" "b"] ∧
    ∃ j q, j < 3 ∧ ps[j]? = some q ∧ sameKey q (property "id" "d") = true ∧ q.fixedKey = "id" := by
  intro property ps
  obtain ⟨hunique, -, -, hdropped, -⟩ := properties_dropped_by_bare_key ps
  obtain ⟨j, q, hlt, hq, -, hsame, hkey⟩ := hdropped 3 (property "id" "d") rfl (by decide +kernel)
  refine ⟨?_, j, q, hlt, hq, hsame, ?_⟩
  · rw [hunique]
    decide +kernel
  · have hforms : ∀ q ∈ ps, q.handler = false ∧ q.modifier = none ∧ q.keySuffix = "" := by decide +kernel
    obtain ⟨hhandler, hmodifier, hsuffix⟩ := hforms q (List.mem_of_getElem? hq)
    exact hkey hhandler hmodifier hsuffix

/-- A listener is dropped behind a property with the name of its event, although the two are written under
different keys. -/
theorem listener_dropped_behind_property :
    let key : Expression := ⟨"click", true, .stub⟩
    let property := plain key (.ofScript "a")
    let listener := { plain key (.ofScript "b") with handler := true }
    property.fixedKey = "click" ∧ listener.fixedKey = "onClick" ∧ unique [property, listener] = [property] := by
  decide +kernel

end JsxTemplate.Property
