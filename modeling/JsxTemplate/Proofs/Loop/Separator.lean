import JsxTemplate.Loop.Head
import JsxTemplate.Proofs.Text.Ranges
import Mathlib.Data.List.DropRight

/-!
# Where the source of a loop starts

The names of a loop and its source are told apart by the first `in` or `of` that has blanks on both sides
and something behind them. Every place of a text is looked at in turn. The first one at which such a word
follows is in front of a whole run of blanks, since a place inside of a run has one before it that would do.
-/

namespace JsxTemplate.LoopHead

open Text

variable {c : Char} {cs names source : List Char} {i k o : Nat}

/-- Some blanks, and at least one. -/
def IsRun (gap : List Char) : Prop := gap ≠ [] ∧ ∀ c ∈ gap, isGap c = true

/-- A text goes on with something that is no blank. -/
def StartsInk (cs : List Char) : Prop := ∃ c ∈ cs.head?, isGap c = false

/-- What stands between the names of a loop and its source. -/
structure Separator where
  gap : List Char
  word : List Char
  gap' : List Char
  gap_run : IsRun gap
  word_eq : word = ['i', 'n'] ∨ word = ['o', 'f']
  gap'_run : IsRun gap'

def Separator.chars (p : Separator) : List Char := p.gap ++ (p.word ++ p.gap')

/-- A text consists of some names, a separator and a source. -/
def Parts (cs names : List Char) (p : Separator) : Prop :=
  ∃ source, StartsInk source ∧ cs = names ++ (p.chars ++ source)

/-! ## Separators -/

theorem IsRun.byteLength_eq {gap : List Char} (h : IsRun gap) : byteLength gap = gap.length := by
  obtain ⟨-, h⟩ := h
  induction gap with
  | nil => rfl
  | cons c cs ih =>
    have hsize : c.utf8Size = 1 := by
      have hc := h c List.mem_cons_self
      simp only [isGap, Bool.or_eq_true, beq_iff_eq] at hc
      rcases hc with (((rfl | rfl) | rfl) | rfl) | rfl <;> rfl
    rw [byteLength, ih fun x hx => h x (List.mem_cons_of_mem c hx), hsize, List.length_cons, Nat.add_comm]

/-- A run of blanks stops where something else starts. -/
theorem IsRun.span {gap rest : List Char} (h : IsRun gap) (hrest : StartsInk rest) :
    (gap ++ rest).takeWhile isGap = gap ∧ (gap ++ rest).dropWhile isGap = rest := by
  obtain ⟨c, hc, hink⟩ := hrest
  obtain ⟨tail, rfl⟩ := List.head?_eq_some_iff.mp hc
  constructor
  · rw [List.takeWhile_append_of_pos h.2, List.takeWhile_cons_of_neg (by simp [hink]), List.append_nil]
  · rw [List.dropWhile_append_of_pos h.2, List.dropWhile_cons_of_neg (by simp [hink])]

theorem afterWord?_eq_some_iff {behind : List Char} :
    afterWord? cs = some behind ↔ ∃ word, (word = ['i', 'n'] ∨ word = ['o', 'f']) ∧ cs = word ++ behind := by
  constructor
  · intro h
    unfold afterWord? at h
    split at h
    · exact ⟨_, Or.inl rfl, by rw [Option.some.inj h]; rfl⟩
    · exact ⟨_, Or.inr rfl, by rw [Option.some.inj h]; rfl⟩
    · cases h
  · rintro ⟨word, rfl | rfl, rfl⟩ <;> rfl

namespace Separator

theorem byteLength_chars (p : Separator) : byteLength p.chars = p.gap.length + 2 + p.gap'.length := by
  have hword : byteLength p.word = 2 := by rcases p.word_eq with h | h <;> rw [h] <;> rfl
  rw [chars, byteLength_append, byteLength_append, p.gap_run.byteLength_eq, hword, p.gap'_run.byteLength_eq,
    Nat.add_assoc]

/-- The blanks in front of the word may start earlier. -/
def extend (p : Separator) (c : Char) (hc : isGap c = true) : Separator :=
  { p with
    gap := c :: p.gap
    gap_run := ⟨List.cons_ne_nil _ _, List.forall_mem_cons.mpr ⟨hc, p.gap_run.2⟩⟩ }

end Separator

namespace Parts

variable {names' : List Char} {p p' : Separator}

theorem cases_cons (h : Parts (c :: cs) names p) : names = [] ∨ ∃ rest, names = c :: rest ∧ Parts cs rest p := by
  obtain ⟨source, hsource, heq⟩ := h
  cases names with
  | nil => exact Or.inl rfl
  | cons c' rest =>
    obtain ⟨rfl, hrest⟩ := List.cons.inj heq
    exact Or.inr ⟨rest, rfl, source, hsource, hrest⟩

theorem cons (h : Parts cs names p) (c : Char) : Parts (c :: cs) (c :: names) p := by
  obtain ⟨source, hsource, rfl⟩ := h
  exact ⟨source, hsource, rfl⟩

theorem eq_of_byteLength (h : Parts cs names p) (h' : Parts cs names' p')
    (hlength : byteLength names = byteLength names') : names = names' := by
  obtain ⟨_, -, hcs⟩ := h
  obtain ⟨_, -, hcs'⟩ := h'
  exact (append_inj_of_byteLength (hcs.symm.trans hcs') hlength).1

/-- In front of every separator there is one whose first gap is a whole run of blanks. -/
theorem exists_whole (h : Parts cs names p) : ∃ names' p', Parts cs names' p' ∧
    (∀ c ∈ names'.getLast?, isGap c = false) ∧ byteLength names' ≤ byteLength names := by
  induction names using List.reverseRecOn generalizing p with
  | nil => exact ⟨[], p, h, by simp, Nat.le_refl _⟩
  | append_singleton names c ih =>
    cases hc : isGap c with
    | false => exact ⟨names ++ [c], p, h, by simpa using hc, Nat.le_refl _⟩
    | true =>
      obtain ⟨source, hsource, hcs⟩ := h
      obtain ⟨names', p', hparts, hlast, hle⟩ := ih (p := p.extend c hc) ⟨source, hsource, by
        rw [hcs, List.append_assoc]; rfl⟩
      exact ⟨names', p', hparts, hlast, by rw [byteLength_append]; omega⟩

end Parts

/-! ## The first separator -/

theorem Separator.split?_append (p : Separator) (hsource : StartsInk source) :
    split? (p.chars ++ source) o = some (o, o + byteLength p.chars) := by
  rw [p.byteLength_chars]
  obtain ⟨gap, word, gap', hgap, hword, hgap'⟩ := p
  have hink : StartsInk (word ++ (gap' ++ source)) := by
    rcases hword with rfl | rfl <;> exact ⟨_, rfl, rfl⟩
  obtain ⟨htake, hdrop⟩ := hgap.span hink
  obtain ⟨htake', hdrop'⟩ := hgap'.span hsource
  have hafter : afterWord? (word ++ (gap' ++ source)) = some (gap' ++ source) :=
    afterWord?_eq_some_iff.mpr ⟨word, hword, rfl⟩
  have hne : source ≠ [] := by
    rintro rfl
    simp [StartsInk] at hsource
  obtain ⟨c, cs, rfl⟩ := List.exists_cons_of_ne_nil hgap.1
  rw [List.cons_append] at htake hdrop
  simp only [chars, List.cons_append, List.append_assoc, split?, hgap.2 c List.mem_cons_self, htake, hdrop,
    hafter, htake', hdrop', if_true, Option.bind_some, List.isEmpty_iff, hgap'.1, hne, Bool.or_eq_true, or_self,
    if_false, Option.some_or, Nat.add_assoc]

theorem split?_of_parts {p : Separator} (h : Parts cs [] p) :
    split? cs o = some (o, o + byteLength p.chars) := by
  obtain ⟨source, hsource, rfl⟩ := h
  exact p.split?_append hsource

theorem split?_of_not_parts (h : ∀ p, ¬ Parts (c :: cs) [] p) :
    split? (c :: cs) o = split? cs (o + c.utf8Size) := by
  have hgap := List.takeWhile_append_dropWhile (p := isGap) (l := c :: cs)
  rw [split?]
  convert Option.none_or
  split
  · next hc =>
    rw [Option.bind_eq_none_iff]
    intro behind hbehind
    obtain ⟨word, hword, hrest⟩ := afterWord?_eq_some_iff.mp hbehind
    have hgap' := List.takeWhile_append_dropWhile (p := isGap) (l := behind)
    rw [if_pos]
    by_contra hfound
    simp only [Bool.or_eq_true, List.isEmpty_iff, not_or] at hfound
    let p : Separator :=
      { gap := (c :: cs).takeWhile isGap
        word
        gap' := behind.takeWhile isGap
        gap_run := ⟨by simp [hc], fun _ => List.mem_takeWhile_imp⟩
        word_eq := hword
        gap'_run := ⟨hfound.1, fun _ => List.mem_takeWhile_imp⟩ }
    have hsource : StartsInk (behind.dropWhile isGap) :=
      ⟨_, List.head?_eq_some_head hfound.2, List.head_dropWhile_not isGap hfound.2⟩
    refine h p ⟨_, hsource, ?_⟩
    simp only [p, Separator.chars, List.nil_append, List.append_assoc]
    rw [hgap', ← hrest, hgap]
  · rfl

theorem not_parts_of_split? {p : Separator} (h : split? cs o = none) : ¬ Parts cs names p := by
  induction cs generalizing names o with
  | nil =>
    rintro ⟨source, -, heq⟩
    simp [Separator.chars, p.gap_run.1] at heq
  | cons c cs ih =>
    have hnot (p : Separator) (hparts : Parts (c :: cs) [] p) : False := by
      rw [split?_of_parts hparts] at h
      cases h
    rw [split?_of_not_parts hnot] at h
    intro hparts
    rcases hparts.cases_cons with rfl | ⟨rest, rfl, hrest⟩
    · exact hnot p hparts
    · exact ih h hrest

/-- What is found is the first separator, at its place behind the byte `o`. -/
theorem parts_of_split? (h : split? cs o = some (i, k)) : ∃ names p, Parts cs names p ∧
    i = o + byteLength names ∧ k = i + byteLength p.chars ∧
    ∀ names' p', Parts cs names' p' → byteLength names ≤ byteLength names' := by
  induction cs generalizing o with
  | nil => cases h
  | cons c cs ih =>
    by_cases hparts : ∃ p, Parts (c :: cs) [] p
    · obtain ⟨p, hparts⟩ := hparts
      rw [split?_of_parts hparts, Option.some.injEq, Prod.mk.injEq] at h
      obtain ⟨rfl, rfl⟩ := h
      exact ⟨[], p, hparts, rfl, rfl, fun _ _ _ => Nat.zero_le _⟩
    · rw [not_exists] at hparts
      rw [split?_of_not_parts hparts] at h
      obtain ⟨names, p, hnames, rfl, rfl, hfirst⟩ := ih h
      refine ⟨c :: names, p, hnames.cons c, by rw [byteLength]; omega, rfl, fun names' p' hnames' => ?_⟩
      rcases hnames'.cases_cons with rfl | ⟨rest, rfl, hrest⟩
      · exact absurd hnames' (hparts p')
      · have hle := hfirst rest p' hrest
        rw [byteLength, byteLength]
        omega

/-- The names of a loop end at byte `i` of a text and its source starts at byte `k`. The separator between
them starts with a whole run of blanks. -/
def SeparatesAt (s : String) (i k : Nat) : Prop :=
  ∃ names p, Parts s.toList names p ∧ (∀ c ∈ names.getLast?, isGap c = false) ∧
    i = byteLength names ∧ k = i + byteLength p.chars

theorem SeparatesAt.unique {s : String} {k' : Nat} (h : SeparatesAt s i k) (h' : SeparatesAt s i k') :
    k = k' := by
  obtain ⟨names, p, hparts, -, rfl, rfl⟩ := h
  obtain ⟨names', p', hparts', -, hlength, rfl⟩ := h'
  obtain rfl := hparts.eq_of_byteLength hparts' hlength
  obtain ⟨source, hsource, hcs⟩ := hparts
  obtain ⟨source', hsource', hcs'⟩ := hparts'
  have hsplit := p.split?_append hsource (o := 0)
  rw [List.append_cancel_left (hcs.symm.trans hcs'), p'.split?_append hsource', Option.some.injEq,
    Prod.mk.injEq] at hsplit
  omega

/-- The separator of a loop is found if there is one, and then the first one. It reaches from one place
between two characters to another one behind it. -/
theorem split?_finds_first_separator (s : String) :
    (∀ i k, split? s.toList 0 = some (i, k) ↔
      SeparatesAt s i k ∧ ∀ i' k', SeparatesAt s i' k' → i ≤ i') ∧
    ((split? s.toList 0).isSome = true ↔ ∃ i k, SeparatesAt s i k) ∧
    ∀ i k, SeparatesAt s i k → isBoundary s i = true ∧ isBoundary s k = true ∧ i < k := by
  have hfound (i k : Nat) (h : split? s.toList 0 = some (i, k)) :
      SeparatesAt s i k ∧ ∀ i' k', SeparatesAt s i' k' → i ≤ i' := by
    obtain ⟨names, p, hparts, rfl, rfl, hfirst⟩ := parts_of_split? h
    obtain ⟨names', p', hparts', hlast, hle⟩ := hparts.exists_whole
    -- the first separator starts with a whole run, since it cannot be behind the one that does
    have hnames : names = names' :=
      hparts.eq_of_byteLength hparts' (Nat.le_antisymm (hfirst names' p' hparts') hle)
    rw [Nat.zero_add]
    refine ⟨⟨names, p, hparts, hnames ▸ hlast, rfl, rfl⟩, ?_⟩
    rintro i' k' ⟨names', p', hparts', -, rfl, -⟩
    exact hfirst names' p' hparts'
  have hsome (i k : Nat) (h : SeparatesAt s i k) : ∃ r, split? s.toList 0 = some r := by
    obtain ⟨names, p, hparts, -⟩ := h
    exact Option.ne_none_iff_exists'.mp fun hnone => not_parts_of_split? hnone hparts
  refine ⟨fun i k => ⟨hfound i k, fun ⟨h, hfirst⟩ => ?_⟩, ⟨fun h => ?_, fun ⟨i, k, h⟩ => ?_⟩, ?_⟩
  · obtain ⟨⟨i', k'⟩, hsplit⟩ := hsome i k h
    obtain ⟨h', hfirst'⟩ := hfound i' k' hsplit
    obtain rfl : i = i' := Nat.le_antisymm (hfirst i' k' h') (hfirst' i k h)
    rw [hsplit, h.unique h']
  · obtain ⟨⟨i, k⟩, hsplit⟩ := Option.isSome_iff_exists.mp h
    exact ⟨i, k, (hfound i k hsplit).1⟩
  · exact Option.isSome_iff_exists.mpr (hsome i k h)
  · rintro i k ⟨names, p, ⟨source, -, hs⟩, -, rfl, rfl⟩
    rw [p.byteLength_chars]
    refine ⟨isBoundary_iff.mpr ⟨names, _, hs, rfl⟩, isBoundary_iff.mpr ⟨names ++ p.chars, source, ?_, ?_⟩, ?_⟩
    · rw [hs, List.append_assoc]
    · rw [byteLength_append, p.byteLength_chars]
    · omega

/-- The first of two words is taken, and the second one belongs to the source. -/
example : split? "(a, b)  in of list".toList 0 = some (6, 11) := by decide

end JsxTemplate.LoopHead
