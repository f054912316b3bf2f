import Mathlib.Data.List.Basic
import Mathlib.Data.List.DropRight
import JsxTemplate.Template.Whitespace

/-!
# White space in the text of a template

Which lines get a space behind them is decided by the last line that holds more than blanks, and which
lines are dropped by what is left of them. Both come to the same: the text that a stretch of character data
stands for is made of the lines that hold more than blanks, trimmed on their inner sides and joined by
single spaces.
-/

namespace JsxTemplate

open Text

def isInked (line : List Char) : Bool :=
  line.any fun c => !isBlank c

def trimReturns (line : List Char) : List Char :=
  line.rdropWhile (· == '\r')

/-- The lines of a text, without the carriage returns at their ends. -/
def textLines (cs : List Char) : List (List Char) :=
  (cs.splitOn '\n').map trimReturns

/-- Line number `i` of `count`, trimmed on the left unless it is the first one and on the right unless it is
the last one. -/
def trimInside (count i : Nat) (line : List Char) : List Char :=
  let line := if i == 0 then line else trimLeft line
  if i + 1 == count then line else trimRight line

def joinLines (lines : List (List Char)) : List Char :=
  [' '].intercalate ((lines.zipIdx.filter fun line => isInked line.1).map fun line =>
    untab (trimInside lines.length line.2 line.1))

/-! ## Blank lines -/

theorem isInked_eq_false {line : List Char} : isInked line = false ↔ ∀ c ∈ line, isBlank c = true := by
  simp [isInked]

theorem isInked_dropWhile {p : Char → Bool} (hp : ∀ c, p c = true → isBlank c = true) (line : List Char) :
    isInked (line.dropWhile p) = isInked line := by
  have hcut : isInked (line.takeWhile p) = false :=
    isInked_eq_false.mpr fun c hc => hp c (List.mem_takeWhile_imp hc)
  conv_rhs => rw [← List.takeWhile_append_dropWhile (p := p) (l := line), isInked, List.any_append]
  rw [← isInked, hcut, Bool.false_or, isInked]

theorem isInked_rdropWhile {p : Char → Bool} (hp : ∀ c, p c = true → isBlank c = true) (line : List Char) :
    isInked (line.rdropWhile p) = isInked line := by
  have hreverse : ∀ l, isInked l.reverse = isInked l := fun l => List.any_reverse
  rw [List.rdropWhile, hreverse, isInked_dropWhile hp, hreverse]

/-- Of two lines or more, each is trimmed on some side, so nothing is left of it just if it is blank. -/
theorem trimInside_eq_nil {count : Nat} (hcount : 2 ≤ count) (i : Nat) (line : List Char) :
    trimInside count i line = [] ↔ isInked line = false := by
  have hleft : ∀ l, trimLeft l = [] ↔ isInked l = false := by simp [trimLeft, isInked]
  have hright : ∀ l, trimRight l = [] ↔ isInked l = false := by simp [trimRight, isInked]
  unfold trimInside
  split <;> split
  · next hfirst hlast =>
    rw [beq_iff_eq] at hfirst hlast
    omega
  · exact hright line
  · exact hleft line
  · rw [hright, trimLeft, isInked_dropWhile fun _ h => h]

/-! ## Spaces between lines -/

theorem lastInkedLine?_append (lines : List (List Char)) (line : List Char) :
    lastInkedLine? (lines ++ [line]) =
      if isInked line = true then some lines.length else lastInkedLine? lines := by
  rw [lastInkedLine?, List.reverse_append, List.reverse_singleton, List.singleton_append, List.findIdx?_cons,
    ← isInked]
  split
  · simp
  · rw [lastInkedLine?, Option.map_map]
    refine congrArg (Option.map · _) (funext fun i => ?_)
    simp only [Function.comp_apply, List.length_append, List.length_singleton]
    omega

/-- There is a space behind a line just if a later one holds more than blanks. -/
theorem any_lastInkedLine? (lines : List (List Char)) (i : Nat) :
    (lastInkedLine? lines).any (i < ·) = (lines.drop (i + 1)).any isInked := by
  induction lines using List.reverseRecOn with
  | nil => simp [lastInkedLine?]
  | append_singleton lines line ih =>
    rw [lastInkedLine?_append, List.drop_append, List.any_append, ← ih]
    by_cases hi : i < lines.length
    · rw [Nat.sub_eq_zero_of_le hi, List.drop_zero]
      split <;> simp_all
    · have hrest : lines.drop (i + 1) = [] := List.drop_eq_nil_of_le (by omega)
      have hline : [line].drop (i + 1 - lines.length) = [] :=
        List.drop_eq_nil_of_le (by rw [List.length_singleton]; omega)
      rw [hline, List.any_nil, Bool.or_false]
      split
      · rw [ih, hrest]
        simpa using hi
      · rfl

theorem intercalate_cons (c : Char) (line : List Char) (lines : List (List Char)) :
    [c].intercalate (line :: lines) =
      line ++ (if lines.isEmpty then [] else [c]) ++ [c].intercalate lines := by
  cases lines <;> simp [List.intercalate]

theorem isInked_trimReturns (line : List Char) : isInked (trimReturns line) = isInked line := by
  refine isInked_rdropWhile (fun c hc => ?_) line
  rw [eq_of_beq hc]
  rfl

theorem isEmpty_inked (lines : List (List Char)) (k : Nat) :
    ((lines.zipIdx k).filter fun line => isInked line.1).isEmpty = !lines.any isInked := by
  induction lines generalizing k with
  | nil => rfl
  | cons line lines ih =>
    rw [List.zipIdx_cons, List.filter_cons, List.any_cons]
    cases isInked line with
    | true => rfl
    | false => exact ih (k + 1)

theorem any_map_trimReturns (lines : List (List Char)) :
    (lines.map trimReturns).any isInked = lines.any isInked := by
  rw [List.any_map]
  exact congrArg lines.any (funext isInked_trimReturns)

theorem cleanLine_eq {count : Nat} (hcount : 2 ≤ count) (last : Option Nat) (line : List Char) (i : Nat) :
    cleanLine count last line i =
      if isInked line = true then
        untab (trimInside count i (trimReturns line)) ++ if last.any (i < ·) then [' '] else []
      else [] := by
  have hnil := trimInside_eq_nil hcount i (trimReturns line)
  rw [isInked_trimReturns] at hnil
  change (if (trimInside count i (trimReturns line)).isEmpty then [] else _) = _
  cases hinked : isInked line with
  | false => rw [if_pos (List.isEmpty_iff.mpr (hnil.mpr hinked))]; rfl
  | true => rw [if_neg (by simp [hnil, hinked])]; rfl

/-- The lines from number `k` on, written one after another. -/
theorem flatMap_cleanLine {count : Nat} {last : Option Nat} (hcount : 2 ≤ count) (lines : List (List Char))
    (k : Nat) (hlast : ∀ i, last.any (k + i < ·) = (lines.drop (i + 1)).any isInked) :
    ((lines.zipIdx k).flatMap fun line => cleanLine count last line.1 line.2) =
      [' '].intercalate ((((lines.map trimReturns).zipIdx k).filter fun line =>
        isInked line.1).map fun line => untab (trimInside count line.2 line.1)) := by
  induction lines generalizing k with
  | nil => rfl
  | cons line lines ih =>
    have hnext : last.any (k < ·) = lines.any isInked := hlast 0
    have hrest := ih (k + 1) fun i => by rw [Nat.add_right_comm]; exact hlast (i + 1)
    rw [List.zipIdx_cons, List.flatMap_cons, hrest, cleanLine_eq hcount, hnext, List.map_cons,
      List.zipIdx_cons, List.filter_cons, isInked_trimReturns]
    split
    · rw [List.map_cons, intercalate_cons, List.isEmpty_map, isEmpty_inked, any_map_trimReturns]
      cases lines.any isInked <;> rfl
    · rfl

/-! ## The lines of a text -/

theorem not_mem_of_mem_splitOn {cs line : List Char} (h : line ∈ cs.splitOn '\n') : '\n' ∉ line := by
  induction cs generalizing line with
  | nil => simp_all
  | cons c cs ih =>
    obtain ⟨first, rest, hcs⟩ := List.exists_cons_of_ne_nil (List.splitOn_ne_nil '\n' cs)
    rw [hcs] at ih
    rw [List.splitOn_cons_eq_if_modifyHead, hcs] at h
    split at h
    · obtain rfl | h := List.mem_cons.mp h
      · exact List.not_mem_nil
      · exact ih h
    · next hc =>
      obtain rfl | h := List.mem_cons.mp h
      · rw [List.mem_cons]
        rintro (rfl | h)
        · exact hc rfl
        · exact ih List.mem_cons_self h
      · exact ih (List.mem_cons_of_mem _ h)

theorem isInked_intercalate (lines : List (List Char)) :
    isInked (['\n'].intercalate lines) = lines.any isInked := by
  induction lines with
  | nil => rfl
  | cons line lines ih =>
    have hbreak : isInked (if lines.isEmpty then [] else ['\n']) = false := by split <;> rfl
    simp only [isInked] at ih hbreak ⊢
    rw [intercalate_cons, List.any_append, List.any_append, hbreak, ih]
    simp [isInked]

theorem any_isInked_splitOn (cs : List Char) : (cs.splitOn '\n').any isInked = isInked cs := by
  rw [← isInked_intercalate, List.intercalate_splitOn]

theorem two_le_length_splitOn {cs : List Char} (h : '\n' ∈ cs) : 2 ≤ (cs.splitOn '\n').length := by
  by_contra hfew
  obtain ⟨line, hline⟩ : ∃ line, cs.splitOn '\n' = [line] := by
    obtain ⟨first, rest, hcs⟩ := List.exists_cons_of_ne_nil (List.splitOn_ne_nil '\n' cs)
    rw [hcs, List.length_cons] at hfew
    rw [hcs, List.eq_nil_of_length_eq_zero (l := rest) (by omega)]
    exact ⟨first, rfl⟩
  have hcs : ['\n'].intercalate (cs.splitOn '\n') = cs := List.intercalate_splitOn '\n'
  rw [hline, List.intercalate_singleton] at hcs
  exact not_mem_of_mem_splitOn (hline ▸ List.mem_singleton_self line) (hcs ▸ h)

theorem cleanText_of_mem {s : String} (h : '\n' ∈ s.toList) :
    (cleanText s).toList = joinLines (textLines s.toList) := by
  have hcount := two_le_length_splitOn h
  have hjoin := flatMap_cleanLine hcount (s.toList.splitOn '\n') 0
    (fun i => by rw [Nat.zero_add, any_lastInkedLine?])
  rw [cleanText, if_pos (List.contains_iff_mem.mpr h), String.toList_ofList, joinLines, textLines,
    List.length_map]
  exact hjoin

theorem cleanText_of_not_mem {s : String} (h : '\n' ∉ s.toList) :
    (cleanText s).toList = untab s.toList := by
  rw [cleanText, if_neg (mt List.contains_iff_mem.mp h), String.toList_ofList]

/-! ## What is left of a text -/

theorem eq_of_mem_untab {c : Char} {cs : List Char} (h : c ∈ untab cs) :
    c ≠ '\t' ∧ (c ∈ cs ∨ c = ' ') := by
  obtain ⟨d, hd, rfl⟩ := List.mem_map.mp h
  split
  · exact ⟨by decide, .inr rfl⟩
  · next hc => exact ⟨by simpa using hc, .inl hd⟩

theorem untab_of_not_mem {cs : List Char} (h : '\t' ∉ cs) : untab cs = cs := by
  refine (List.map_congr_left fun c hc => if_neg fun heq => h ?_).trans (List.map_id cs)
  rw [beq_iff_eq] at heq
  exact heq ▸ hc

theorem mem_intercalate {c d : Char} {lines : List (List Char)} (h : c ∈ [d].intercalate lines) :
    c = d ∨ ∃ line ∈ lines, c ∈ line := by
  induction lines with
  | nil => simp at h
  | cons line lines ih =>
    rw [intercalate_cons, List.mem_append, List.mem_append] at h
    rcases h with (h | h) | h
    · exact .inr ⟨line, List.mem_cons_self, h⟩
    · split at h
      · simp at h
      · exact .inl (List.mem_singleton.mp h)
    · obtain h | ⟨line', hline', h⟩ := ih h
      · exact .inl h
      · exact .inr ⟨line', List.mem_cons_of_mem _ hline', h⟩

theorem trimInside_subset (count i : Nat) (line : List Char) : trimInside count i line ⊆ line := by
  have hleft : ∀ l, trimLeft l ⊆ l := fun l => (List.dropWhile_sublist _).subset
  have hright : ∀ l, trimRight l ⊆ l := fun l => (List.rdropWhile_prefix _ _).subset
  unfold trimInside
  split <;> split
  · exact List.Subset.refl _
  · exact hright line
  · exact hleft line
  · exact List.Subset.trans (hright _) (hleft line)

theorem mem_joinLines {c : Char} {lines : List (List Char)} (h : c ∈ joinLines lines) :
    c ≠ '\t' ∧ (c = ' ' ∨ ∃ line ∈ lines, c ∈ line) := by
  obtain rfl | ⟨line, hline, hc⟩ := mem_intercalate h
  · exact ⟨by decide, .inl rfl⟩
  · obtain ⟨⟨line, i⟩, hmem, rfl⟩ := List.mem_map.mp hline
    obtain ⟨hne, hc | rfl⟩ := eq_of_mem_untab hc
    · refine ⟨hne, .inr ⟨line, ?_, trimInside_subset _ _ _ hc⟩⟩
      exact List.fst_mem_of_mem_zipIdx (List.mem_of_mem_filter hmem)
    · exact ⟨hne, .inl rfl⟩

theorem joinLines_eq_nil {lines : List (List Char)} (hcount : 2 ≤ lines.length) :
    joinLines lines = [] ↔ lines.any isInked = false := by
  have hempty := isEmpty_inked lines 0
  rw [joinLines]
  cases hkept : lines.zipIdx.filter fun line => isInked line.1 with
  | nil =>
    rw [hkept, List.isEmpty_nil, eq_comm, Bool.not_eq_true'] at hempty
    simp [hempty]
  | cons kept rest =>
    rw [hkept, List.isEmpty_cons, eq_comm, Bool.not_eq_false'] at hempty
    have hinked : isInked kept.1 = true :=
      (List.mem_filter.mp (hkept ▸ List.mem_cons_self : kept ∈ lines.zipIdx.filter _)).2
    have hline : trimInside lines.length kept.2 kept.1 ≠ [] := by
      rw [Ne, trimInside_eq_nil hcount, hinked]
      decide
    rw [List.map_cons, intercalate_cons, hempty]
    simp [untab, hline]

/-- Text on one line keeps its blanks, and of text on several lines those that hold more than blanks are
joined by single spaces, with nothing left at their inner sides. So no line break and no tab is left, nothing
is left just of a blank text with a line break and of the empty text, and a clean text stays as it is. -/
theorem cleanText_joins_inked_lines (s : String) :
    cleanText s = String.ofList (if '\n' ∈ s.toList then joinLines (textLines s.toList) else untab s.toList) ∧
    '\n' ∉ (cleanText s).toList ∧ '\t' ∉ (cleanText s).toList ∧
    (cleanText s = "" ↔ s = "" ∨ isEmptyOrBlank s = true ∧ '\n' ∈ s.toList) ∧
    cleanText (cleanText s) = cleanText s := by
  have hempty : ∀ t : String, t = "" ↔ t.toList = [] := fun t => String.toList_eq_nil_iff.symm
  have hclean : '\n' ∉ (cleanText s).toList ∧ '\t' ∉ (cleanText s).toList := by
    by_cases h : '\n' ∈ s.toList
    · rw [cleanText_of_mem h]
      refine ⟨fun hc => ?_, fun hc => (mem_joinLines hc).1 rfl⟩
      obtain ⟨-, hc | ⟨line, hline, hc⟩⟩ := mem_joinLines hc
      · exact absurd hc (by decide)
      · obtain ⟨line, hmem, rfl⟩ := List.mem_map.mp hline
        exact not_mem_of_mem_splitOn hmem ((List.rdropWhile_prefix _ _).subset hc)
    · rw [cleanText_of_not_mem h]
      refine ⟨fun hc => ?_, fun hc => (eq_of_mem_untab hc).1 rfl⟩
      exact (eq_of_mem_untab hc).2.elim h (by decide)
  refine ⟨?_, hclean.1, hclean.2, ?_, ?_⟩
  · rw [← String.toList_inj, String.toList_ofList]
    split
    · next h => exact cleanText_of_mem h
    · next h => exact cleanText_of_not_mem h
  · rw [hempty, hempty s]
    by_cases h : '\n' ∈ s.toList
    · have hlines : 2 ≤ (textLines s.toList).length := by
        rw [textLines, List.length_map]
        exact two_le_length_splitOn h
      rw [cleanText_of_mem h, joinLines_eq_nil hlines, textLines, any_map_trimReturns, any_isInked_splitOn,
        isInked_eq_false]
      simp [isEmptyOrBlank, h, List.ne_nil_of_mem h]
    · rw [cleanText_of_not_mem h]
      simp [untab, h]
  · rw [← String.toList_inj, cleanText_of_not_mem hclean.1, untab_of_not_mem hclean.2]

end JsxTemplate
