import JsxTemplate.Code.SourceMap
import Mathlib.Data.List.Forall2
import Mathlib.Data.List.Induction

/-!
# Reading source maps

The mappings of a source map are read by the rules of the format: lines end at semicolons, segments at
commas, and the numbers of a segment are added to those of the segment before it (`decode`). What is read
is what was recorded (`decode_ofMappings`).
-/

namespace JsxTemplate.SourceMap

variable {ms mappings : List Mapping} {m : Mapping} {o : Origin} {c : Char}

/-! ## Reading numbers -/

/-- The value of a digit of base 64. -/
def digitValue? (c : Char) : Option Nat :=
  if 'A' ≤ c ∧ c ≤ 'Z' then some (c.toNat - 'A'.toNat)
  else if 'a' ≤ c ∧ c ≤ 'z' then some (c.toNat - 'a'.toNat + 26)
  else if '0' ≤ c ∧ c ≤ '9' then some (c.toNat - '0'.toNat + 52)
  else if c = '+' then some 62
  else if c = '/' then some 63
  else none

/-- The numbers that are written in a text. A digit with the sixth bit belongs to the number behind it. -/
def decodeNats : List Char → Option (List Nat)
  | [] => some []
  | c :: cs =>
    match digitValue? c, decodeNats cs with
    | some d, some ns =>
      if d < 32 then some (d :: ns)
      else
        match ns with
        | [] => none
        | n :: ns => some ((d - 32 + 32 * n) :: ns)
    | _, _ => none

/-- The integer with the sign in the lowest bit. -/
def signed (n : Nat) : Int :=
  if n % 2 = 1 then -(n / 2 : Nat) else (n / 2 : Nat)

/-- The integers that are written in a text. -/
def decodeInts (cs : List Char) : Option (List Int) :=
  (decodeNats cs).map (List.map signed)

theorem digitValue?_digit {n : Nat} (h : n < 64) : digitValue? (digit n) = some n := by
  have hall : ∀ n : Fin 64, digitValue? (digit n) = some n.val := by decide +kernel
  exact hall ⟨n, h⟩

theorem decodeNats_encodeNat (n : Nat) (rest : List Char) :
    decodeNats (encodeNat n ++ rest) = (decodeNats rest).map (n :: ·) := by
  induction n using Nat.strongRecOn with
  | ind n ih =>
    rw [encodeNat]
    split
    · next hlt =>
      simp only [List.cons_append, List.nil_append, decodeNats, digitValue?_digit (n := n) (by omega)]
      cases decodeNats rest <;> simp [hlt]
    · next hlt =>
      have hdigit : digitValue? (digit (n % 32 + 32)) = some (n % 32 + 32) :=
        digitValue?_digit (by omega)
      have hsum : n % 32 + 32 * (n / 32) = n := Nat.mod_add_div n 32
      simp only [List.cons_append, decodeNats, hdigit, ih (n / 32) (by omega)]
      cases decodeNats rest <;> simp [hsum]

theorem digitValue?_of_mem_encodeNat {n : Nat} (h : c ∈ encodeNat n) : (digitValue? c).isSome := by
  induction n using Nat.strongRecOn with
  | ind n ih =>
    rw [encodeNat] at h
    split at h
    · rw [List.mem_singleton.mp h, digitValue?_digit (by omega)]
      rfl
    · rcases List.mem_cons.mp h with rfl | h
      · rw [digitValue?_digit (by omega)]
        rfl
      · exact ih (n / 32) (by omega) h

theorem encodeNat_ne_nil (n : Nat) : encodeNat n ≠ [] := by
  rw [encodeNat]
  split <;> simp

theorem decodeInts_encodeInt (n : Int) (rest : List Char) :
    decodeInts (encodeInt n ++ rest) = (decodeInts rest).map (n :: ·) := by
  have hsigned : signed (if n < 0 then 2 * n.natAbs + 1 else 2 * n.natAbs) = n := by
    unfold signed
    split <;> split <;> omega
  rw [decodeInts, encodeInt, decodeNats_encodeNat, decodeInts]
  cases decodeNats rest <;> simp [hsigned]

/-! ## Reading segments -/

/-- A place in one of the files that the code comes from. -/
structure SourcePlace where
  source : Int
  line : Int
  column : Int
  deriving DecidableEq, Repr

/-- A segment as it is read. -/
structure Entry where
  column : Int
  place : Option SourcePlace
  name : Option Int
  deriving DecidableEq, Repr

/-- The sums of the numbers that were read so far. -/
structure Totals where
  column : Int
  place : SourcePlace
  name : Int
  deriving DecidableEq, Repr

def SourcePlace.move (p : SourcePlace) (source line column : Int) : SourcePlace :=
  ⟨p.source + source, p.line + line, p.column + column⟩

/-- The segment that some numbers stand for: a column alone, with a place, or with a place and a name. -/
def readEntry (t : Totals) : List Int → Option (Entry × Totals)
  | [c] => some (⟨t.column + c, none, none⟩, { t with column := t.column + c })
  | [c, s, l, k] =>
    let place := t.place.move s l k
    some (⟨t.column + c, some place, none⟩, { t with column := t.column + c, place })
  | [c, s, l, k, n] =>
    let place := t.place.move s l k
    some (⟨t.column + c, some place, some (t.name + n)⟩, ⟨t.column + c, place, t.name + n⟩)
  | _ => none

def decodeEntries (t : Totals) : List (List Char) → Option (List Entry × Totals)
  | [] => some ([], t)
  | cs :: rest => do
    let (entry, t) ← (decodeInts cs).bind (readEntry t)
    let (entries, t) ← decodeEntries t rest
    return (entry :: entries, t)

def splitLine (cs : List Char) : List (List Char) :=
  if cs.isEmpty then [] else cs.splitOn ','

/-- The segments of lines with the given texts. The column starts anew on each line. -/
def decodeLines (t : Totals) : List (List Char) → Option (List (List Entry))
  | [] => some []
  | cs :: rest => do
    let (entries, t) ← decodeEntries { t with column := 0 } (splitLine cs)
    let lines ← decodeLines t rest
    return entries :: lines

/-- The segments of the lines of the code. -/
def decode (mappings : String) : Option (List (List Entry)) :=
  decodeLines ⟨0, ⟨0, 0, 0⟩, 0⟩ (mappings.toList.splitOn ';')

/-! ## What is written is read -/

/-- A segment in the only file there is. -/
def Entry.ofSegment (s : Segment) : Entry :=
  ⟨s.column, some ⟨0, s.sourceLine, s.sourceColumn⟩, s.name.map Int.ofNat⟩

/-- The sums after what a segment is written against. -/
def Totals.ofOrigin (o : Origin) : Totals :=
  ⟨o.column, ⟨0, o.sourceLine, o.sourceColumn⟩, o.name⟩

theorem readEntry_encodeSegment (o : Origin) (s : Segment) :
    (decodeInts (encodeSegment o s)).bind (readEntry (.ofOrigin o)) =
      some (.ofSegment s, .ofOrigin (o.after s)) := by
  have hsum : ∀ a b : Int, a + (b - a) = b := by omega
  have hnone : decodeInts [] = some [] := rfl
  cases hname : s.name with
  | none =>
    simp only [encodeSegment, hname, Option.map_none, Option.getD_none, List.append_assoc,
      decodeInts_encodeInt, hnone, Option.map_some]
    simp [readEntry, Totals.ofOrigin, SourcePlace.move, Entry.ofSegment, Origin.after, hname, hsum]
  | some n =>
    have hlast : decodeInts (encodeInt (n - o.name)) = some [n - o.name] := by
      have := decodeInts_encodeInt (n - o.name) []
      rwa [List.append_nil] at this
    simp only [encodeSegment, hname, Option.map_some, Option.getD_some, List.append_assoc,
      decodeInts_encodeInt, hlast]
    simp [readEntry, Totals.ofOrigin, SourcePlace.move, Entry.ofSegment, Origin.after, hname, hsum]

theorem digitValue?_of_mem_encodeSegment {s : Segment} (h : c ∈ encodeSegment o s) :
    (digitValue? c).isSome := by
  simp only [encodeSegment, encodeInt, List.mem_append] at h
  rcases h with (((h | h) | h) | h) | h
  · exact digitValue?_of_mem_encodeNat h
  · exact digitValue?_of_mem_encodeNat h
  · exact digitValue?_of_mem_encodeNat h
  · exact digitValue?_of_mem_encodeNat h
  · cases hname : s.name with
    | none => simp [hname] at h
    | some n =>
      rw [hname] at h
      exact digitValue?_of_mem_encodeNat h

theorem encodeSegment_ne_nil (o : Origin) (s : Segment) : encodeSegment o s ≠ [] := by
  simp [encodeSegment, encodeInt, encodeNat_ne_nil]

def segmentTexts (o : Origin) : List Segment → List (List Char)
  | [] => []
  | s :: rest => encodeSegment o s :: segmentTexts (o.after s) rest

theorem encodeLine_eq (o : Origin) (segments : List Segment) :
    encodeLine o segments =
      ([','].intercalate (segmentTexts o segments), segments.foldl Origin.after o) := by
  induction segments generalizing o with
  | nil => rfl
  | cons s rest ih =>
    cases rest with
    | nil => simp [encodeLine, segmentTexts]
    | cons s' rest =>
      rw [encodeLine, ih (o.after s)]
      · simp [segmentTexts, List.intercalate_cons_cons]
      · simp

theorem mem_segmentTexts {segments : List Segment} {text : List Char}
    (h : text ∈ segmentTexts o segments) : ∃ o s, text = encodeSegment o s := by
  induction segments generalizing o with
  | nil => simp [segmentTexts] at h
  | cons s rest ih =>
    rcases List.mem_cons.mp h with rfl | h
    · exact ⟨o, s, rfl⟩
    · exact ih h

theorem eq_comma_of_mem_encodeLine {segments : List Segment} (h : c ∈ (encodeLine o segments).1) :
    c = ',' ∨ (digitValue? c).isSome := by
  induction segments generalizing o with
  | nil => simp [encodeLine] at h
  | cons s rest ih =>
    cases rest with
    | nil => exact .inr (digitValue?_of_mem_encodeSegment h)
    | cons s' rest =>
      rw [encodeLine] at h
      · rcases List.mem_append.mp h with h | h
        · exact .inr (digitValue?_of_mem_encodeSegment h)
        · rcases List.mem_cons.mp h with h | h
          · exact .inl h
          · exact ih h
      · simp

theorem splitLine_encodeLine (o : Origin) (segments : List Segment) :
    splitLine (encodeLine o segments).1 = segmentTexts o segments := by
  rw [encodeLine_eq, splitLine]
  cases segments with
  | nil => rfl
  | cons s rest =>
    have hcomma : ∀ text ∈ segmentTexts o (s :: rest), ',' ∉ text := by
      intro text htext hmem
      obtain ⟨o, s, rfl⟩ := mem_segmentTexts htext
      exact absurd (digitValue?_of_mem_encodeSegment hmem) (by decide)
    have hsplit := List.splitOn_intercalate ',' hcomma (by simp [segmentTexts])
    have hfull : [','].intercalate (segmentTexts o (s :: rest)) ≠ [] := by
      intro hnil
      rw [hnil] at hsplit
      have htext : ([] : List Char) = encodeSegment o s := (List.cons.inj hsplit).1
      exact encodeSegment_ne_nil o s htext.symm
    rw [if_neg (by simpa using hfull), hsplit]

theorem decodeEntries_segmentTexts (o : Origin) (segments : List Segment) :
    decodeEntries (.ofOrigin o) (segmentTexts o segments) =
      some (segments.map .ofSegment, .ofOrigin (segments.foldl Origin.after o)) := by
  induction segments generalizing o with
  | nil => rfl
  | cons s rest ih => simp [segmentTexts, decodeEntries, readEntry_encodeSegment, ih]

def lineTexts (o : Origin) : List (List Segment) → List (List Char)
  | [] => []
  | line :: rest =>
    (encodeLine { o with column := 0 } line).1 ::
      lineTexts (encodeLine { o with column := 0 } line).2 rest

theorem encodeLines_eq (o : Origin) (lines : List (List Segment)) :
    encodeLines o lines = [';'].intercalate (lineTexts o lines) := by
  induction lines generalizing o with
  | nil => rfl
  | cons line rest ih =>
    cases rest with
    | nil => simp [encodeLines, lineTexts]
    | cons line' rest =>
      rw [encodeLines]
      · show _ ++ ';' :: encodeLines _ (line' :: rest) = _
        rw [ih]
        simp [lineTexts, List.intercalate_cons_cons]
      · simp

theorem not_mem_of_mem_lineTexts {lines : List (List Segment)} {text : List Char}
    (h : text ∈ lineTexts o lines) : ';' ∉ text := by
  induction lines generalizing o with
  | nil => simp [lineTexts] at h
  | cons line rest ih =>
    rcases List.mem_cons.mp h with rfl | h
    · intro hmem
      exact absurd (eq_comma_of_mem_encodeLine hmem) (by decide)
    · exact ih h

theorem decodeLines_lineTexts (o : Origin) (lines : List (List Segment)) :
    decodeLines (.ofOrigin o) (lineTexts o lines) = some (lines.map (List.map .ofSegment)) := by
  induction lines generalizing o with
  | nil => rfl
  | cons line rest ih =>
    have hentries := decodeEntries_segmentTexts { o with column := 0 } line
    rw [lineTexts, decodeLines, splitLine_encodeLine]
    have hzero : ({ Totals.ofOrigin o with column := 0 } : Totals) = .ofOrigin { o with column := 0 } := rfl
    rw [hzero, hentries, encodeLine_eq]
    simp [ih]

theorem decode_encodeLines (lines : List (List Segment)) :
    ∃ read, decode (String.ofList (encodeLines ⟨0, 0, 0, 0⟩ lines)) = some read ∧
      ∀ i, read.getD i [] = (lines.getD i []).map .ofSegment := by
  rw [decode, String.toList_ofList, encodeLines_eq]
  cases lines with
  | nil => exact ⟨[[]], rfl, fun i => by cases i <;> rfl⟩
  | cons line rest =>
    rw [List.splitOn_intercalate ';' (fun _ h => not_mem_of_mem_lineTexts h) (by simp [lineTexts])]
    refine ⟨_, decodeLines_lineTexts ⟨0, 0, 0, 0⟩ (line :: rest), fun i => ?_⟩
    rw [List.getD_eq_getElem?_getD, List.getD_eq_getElem?_getD, List.getElem?_map]
    cases (line :: rest)[i]? <;> rfl

/-! ## What is recorded -/

/-- The mappings of a line behind which another one is recorded. A mapping at the column of the last one
takes its place. -/
def keepLast (kept : List Mapping) (m : Mapping) : List Mapping :=
  if kept.getLast?.any fun last => last.place.column == m.place.column then kept.dropLast ++ [m]
  else kept ++ [m]

/-- The mappings that are recorded for a line of the code. -/
def recorded (mappings : List Mapping) (line : Nat) : List Mapping :=
  (mappings.filter fun m => m.place.line == line).foldl keepLast []

theorem keepLast_concat (kept : List Mapping) (last m : Mapping) :
    keepLast (kept ++ [last]) m =
      if last.place.column = m.place.column then kept ++ [m] else kept ++ [last] ++ [m] := by
  simp [keepLast]

theorem lastAtColumn_map (source : String) (names : List String) (ms : List Mapping) :
    lastAtColumn (ms.map (segment source names)) = (ms.foldl keepLast []).map (segment source names) := by
  -- all but the last of what is kept stays
  have hkept : ∀ (ms kept : List Mapping) (last : Mapping),
      (ms.foldl keepLast (kept ++ [last])).map (segment source names) =
        kept.map (segment source names) ++ lastAtColumn ((last :: ms).map (segment source names)) := by
    intro ms
    induction ms with
    | nil => simp [lastAtColumn]
    | cons m ms ih =>
      intro kept last
      rw [List.foldl_cons, keepLast_concat]
      by_cases hcolumn : last.place.column = m.place.column
      · rw [if_pos hcolumn, ih]
        simp [lastAtColumn, segment, hcolumn]
      · rw [if_neg hcolumn, ih]
        simp [lastAtColumn, segment, hcolumn]
  cases ms with
  | nil => rfl
  | cons m ms =>
    have := hkept ms [] m
    simpa [keepLast] using this.symm

theorem lt_lineCount (h : m ∈ mappings) : m.place.line < lineCount mappings := by
  have hmax : ∀ (ms : List Mapping) (n : Nat),
      n ≤ ms.foldl (fun n m => max n (m.place.line + 1)) n ∧
        ∀ m ∈ ms, m.place.line < ms.foldl (fun n m => max n (m.place.line + 1)) n := by
    intro ms
    induction ms with
    | nil => simp
    | cons m ms ih =>
      intro n
      obtain ⟨hle, hall⟩ := ih (max n (m.place.line + 1))
      rw [List.foldl_cons]
      refine ⟨by omega, fun m' hm' => ?_⟩
      rcases List.mem_cons.mp hm' with rfl | hm'
      · omega
      · exact hall m' hm'
  exact (hmax mappings 0).2 m h

theorem segments_getD (source : String) (mappings : List Mapping) (line : Nat) :
    (segments source mappings).getD line [] =
      (recorded mappings line).map (segment source (namesOf mappings)) := by
  rw [segments, List.getD_eq_getElem?_getD, List.getElem?_map]
  by_cases hline : line < lineCount mappings
  · simp [hline, lineSegments, lastAtColumn_map, recorded]
  · have hnone : mappings.filter (fun m => m.place.line == line) = [] := by
      rw [List.filter_eq_nil_iff]
      intro m hm heq
      have := lt_lineCount hm
      simp only [beq_iff_eq] at heq
      omega
    simp [hline, recorded, hnone]

/-! ## Names -/

theorem foldl_addName (names known : List String) :
    names.foldl addName known = known ++ (names.filter fun n => !known.contains n).eraseDups := by
  induction names generalizing known with
  | nil => simp
  | cons name names ih =>
    rw [List.foldl_cons, ih, addName]
    by_cases hknown : known.contains name = true
    · rw [if_pos hknown, List.filter_cons_of_neg (by simpa using hknown)]
    · have hfilter : (names.filter fun n => !(known ++ [name]).contains n) =
          (names.filter fun n => !known.contains n).filter fun n => !(n == name) := by
        rw [List.filter_filter]
        refine List.filter_congr fun n _ => ?_
        by_cases hn : n = name <;> simp [hn]
      rw [if_neg hknown, hfilter, List.filter_cons_of_pos (by simpa using hknown),
        List.eraseDups_cons]
      simp

theorem namesOf_eq (mappings : List Mapping) :
    namesOf mappings = (mappings.filterMap Mapping.name).eraseDups := by
  rw [namesOf, foldl_addName]
  simp

theorem mem_namesOf {name : String} (h : m ∈ mappings) (hname : m.name = some name) :
    name ∈ namesOf mappings := by
  rw [namesOf_eq, List.mem_eraseDups]
  exact List.mem_filterMap.mpr ⟨m, h, hname⟩

/-! ## Places in order -/

/-- The places of the code are in the order of the code. -/
def InOrder (mappings : List Mapping) : Prop :=
  mappings.Pairwise fun a b =>
    a.place.line < b.place.line ∨ a.place.line = b.place.line ∧ a.place.column ≤ b.place.column

/-- No mapping behind `m` has the same place. -/
def IsLast (mappings : List Mapping) (m : Mapping) : Prop :=
  ∃ before after, mappings = before ++ m :: after ∧ ∀ m' ∈ after, m'.place ≠ m.place

theorem isLast_concat {x m : Mapping} :
    IsLast (ms ++ [x]) m ↔ m = x ∨ IsLast ms m ∧ x.place ≠ m.place := by
  constructor
  · rintro ⟨before, after, hms, hafter⟩
    rcases List.eq_nil_or_concat after with rfl | ⟨init, last, rfl⟩
    · exact .inl (by simpa using (List.append_inj' hms rfl).2.symm)
    · have hsplit : ms ++ [x] = (before ++ m :: init) ++ [last] := by simp [hms]
      obtain ⟨rfl, hx⟩ := List.append_inj' hsplit rfl
      obtain rfl : x = last := by simpa using hx
      exact .inr ⟨⟨before, init, rfl, fun m' hm' => hafter m' (by simp [hm'])⟩, hafter x (by simp)⟩
  · rintro (rfl | ⟨⟨before, after, rfl, hafter⟩, hx⟩)
    · exact ⟨ms, [], rfl, by simp⟩
    · refine ⟨before, after ++ [x], by simp, fun m' hm' => ?_⟩
      rcases List.mem_append.mp hm' with hm' | hm'
      · exact hafter m' hm'
      · rwa [List.mem_singleton.mp hm']

theorem IsLast.mem (h : IsLast ms m) : m ∈ ms := by
  obtain ⟨before, after, rfl, -⟩ := h
  simp

theorem recorded_concat (ms : List Mapping) (x : Mapping) (line : Nat) :
    recorded (ms ++ [x]) line =
      if x.place.line = line then keepLast (recorded ms line) x else recorded ms line := by
  by_cases hx : x.place.line = line <;> simp [recorded, hx]

theorem keepLast_of_le {kept : List Mapping} {x : Mapping}
    (hkept : kept.Pairwise fun a b => a.place.column < b.place.column)
    (hle : ∀ m ∈ kept, m.place.column ≤ x.place.column) :
    ((keepLast kept x).Pairwise fun a b => a.place.column < b.place.column) ∧
      ∀ m, m ∈ keepLast kept x ↔ m = x ∨ m ∈ kept ∧ x.place.column ≠ m.place.column := by
  rcases List.eq_nil_or_concat kept with rfl | ⟨init, last, hconcat⟩
  · simp [keepLast]
  · obtain rfl : kept = init ++ [last] := by simpa using hconcat
    obtain ⟨hinit, -, hlast⟩ := List.pairwise_append.mp hkept
    have hlt : ∀ m ∈ init, m.place.column < last.place.column := fun m hm => hlast m hm last (by simp)
    have hlastx : last.place.column ≤ x.place.column := hle last (by simp)
    rw [keepLast_concat]
    split
    · next hcolumn =>
      refine ⟨List.pairwise_append.mpr ⟨hinit, by simp, fun m hm x' hx' => ?_⟩, fun m => ?_⟩
      · rw [List.mem_singleton.mp hx', ← hcolumn]
        exact hlt m hm
      · rw [List.mem_append, List.mem_append, List.mem_singleton, List.mem_singleton, or_comm]
        refine or_congr_right ⟨fun hm => ⟨.inl hm, ?_⟩, ?_⟩
        · have := hlt m hm
          omega
        · rintro ⟨hm | rfl, hne⟩
          · exact hm
          · exact absurd hcolumn.symm hne
    · next hcolumn =>
      have hbelow : ∀ m ∈ init ++ [last], m.place.column < x.place.column := by
        intro m hm
        rcases List.mem_append.mp hm with hm | hm
        · have := hlt m hm
          omega
        · rw [List.mem_singleton.mp hm]
          omega
      refine ⟨List.pairwise_append.mpr ⟨hkept, by simp, fun m hm x' hx' => ?_⟩, fun m => ?_⟩
      · rw [List.mem_singleton.mp hx']
        exact hbelow m hm
      · rw [List.mem_append, List.mem_singleton, or_comm]
        refine or_congr_right ⟨fun hm => ⟨hm, ?_⟩, And.left⟩
        have := hbelow m hm
        omega

theorem recorded_of_inOrder (h : InOrder ms) (line : Nat) :
    ((recorded ms line).Pairwise fun a b => a.place.column < b.place.column) ∧
      ∀ m, m ∈ recorded ms line ↔ m.place.line = line ∧ IsLast ms m := by
  induction ms using List.reverseRecOn with
  | nil => simp [recorded, IsLast]
  | append_singleton ms x ih =>
    rw [InOrder, List.pairwise_append] at h
    obtain ⟨hms, -, hbefore⟩ := h
    obtain ⟨hcolumns, hmem⟩ := ih hms
    rw [recorded_concat]
    split
    · next hx =>
      have hle : ∀ m ∈ recorded ms line, m.place.column ≤ x.place.column := by
        intro m hm
        obtain ⟨hline, hlast⟩ := (hmem m).mp hm
        have := hbefore m hlast.mem x (by simp)
        omega
      obtain ⟨hcolumns', hmem'⟩ := keepLast_of_le hcolumns hle
      refine ⟨hcolumns', fun m => ?_⟩
      rw [hmem', hmem, isLast_concat]
      constructor
      · rintro (rfl | ⟨⟨hline, hlast⟩, hne⟩)
        · exact ⟨hx, .inl rfl⟩
        · exact ⟨hline, .inr ⟨hlast, fun heq => hne (by rw [heq])⟩⟩
      · rintro ⟨hline, rfl | ⟨hlast, hne⟩⟩
        · exact .inl rfl
        · refine .inr ⟨⟨hline, hlast⟩, fun heq => hne ?_⟩
          cases hxp : x.place
          cases hmp : m.place
          simp_all
    · next hx =>
      refine ⟨hcolumns, fun m => ?_⟩
      rw [hmem, isLast_concat]
      constructor
      · rintro ⟨hline, hlast⟩
        exact ⟨hline, .inr ⟨hlast, fun heq => hx (by rw [heq, hline])⟩⟩
      · rintro ⟨hline, rfl | ⟨hlast, -⟩⟩
        · exact absurd hline hx
        · exact ⟨hline, hlast⟩

/-! ## Reading a source map -/

/-- A segment says of a mapping what it should: the column, the place in the only file, and the index of
the name. -/
structure Entry.Records (source : String) (names : List String) (e : Entry) (m : Mapping) : Prop where
  column : e.column = m.place.column
  place : e.place = some ⟨0, (m.source.line - 1 : Nat), sourceColumn source m.source.offset⟩
  unnamed : m.name = none → e.name = none
  named : ∀ name, m.name = some name → ∃ index : Nat, e.name = some index ∧ names[index]? = some name

theorem records_ofSegment (source : String) (h : m ∈ mappings) :
    (Entry.ofSegment (segment source (namesOf mappings) m)).Records source (namesOf mappings) m := by
  refine ⟨rfl, rfl, fun hname => by simp [Entry.ofSegment, segment, hname], fun name hname => ?_⟩
  have hsome := List.isSome_idxOf?.mpr (mem_namesOf h hname)
  obtain ⟨index, hindex⟩ := Option.isSome_iff_exists.mp hsome
  obtain ⟨hlt, hget, -⟩ := List.idxOf?_eq_some_iff.mp hindex
  exact ⟨index, by simp [Entry.ofSegment, segment, hname, hindex], List.getElem?_eq_some_iff.mpr ⟨hlt, hget⟩⟩

theorem mem_of_mem_recorded {line : Nat} (h : m ∈ recorded ms line) : m ∈ ms := by
  induction ms using List.reverseRecOn with
  | nil => simp [recorded] at h
  | append_singleton ms x ih =>
    rw [recorded_concat] at h
    split at h
    · rw [keepLast] at h
      split at h
      · rcases List.mem_append.mp h with h | h
        · exact List.mem_append_left _ (ih (List.dropLast_subset _ h))
        · exact List.mem_append_right _ h
      · rcases List.mem_append.mp h with h | h
        · exact List.mem_append_left _ (ih h)
        · exact List.mem_append_right _ h
    · exact List.mem_append_left _ (ih h)

/-- A source map is read as what was recorded, line by line, and its names are those that were recorded,
in the order of their first use. If the mappings are recorded in the order of the code, every place has the
segment of the last mapping there, and the segments of a line are in order. -/
theorem decode_ofMappings (file source : String) (mappings : List Mapping)
    (hcut : ∀ m ∈ mappings, isBetweenCharacters source m = true) :
    ∃ map read, ofMappings file source mappings = .ok map ∧ decode map.mappings = some read ∧
      (∀ line, List.Forall₂ (Entry.Records source map.names) (read.getD line [])
        (recorded mappings line)) ∧
      map.names = (mappings.filterMap Mapping.name).eraseDups ∧
      (InOrder mappings → ∀ line,
        ((recorded mappings line).Pairwise fun a b => a.place.column < b.place.column) ∧
        ∀ m, m ∈ recorded mappings line ↔ m.place.line = line ∧ IsLast mappings m) := by
  obtain ⟨read, hread, hlines⟩ := decode_encodeLines (segments source mappings)
  refine ⟨_, read, if_pos (List.all_eq_true.mpr hcut), hread, fun line => ?_, namesOf_eq mappings,
    fun horder line => recorded_of_inOrder horder line⟩
  rw [hlines, segments_getD, List.map_map, List.forall₂_map_left_iff, List.forall₂_same]
  exact fun m hm => records_ofSegment source (mem_of_mem_recorded hm)

/-- Two names, one of them twice, on lines of which some are empty, with places before those of the segment
before. -/
theorem decode_ofMappings_lines :
    let source := "<div>\n\x7bföö\x7d\x7bbar\x7d</div>"
    let mappings : List Mapping :=
      [⟨⟨0, 4⟩, ⟨7, 2, 2⟩, some "föö"⟩, ⟨⟨0, 21⟩, ⟨12, 2, 7⟩, none⟩, ⟨⟨3, 2⟩, ⟨14, 2, 9⟩, some "bar"⟩,
        ⟨⟨3, 2⟩, ⟨13, 2, 8⟩, some "bar"⟩, ⟨⟨3, 40⟩, ⟨1, 1, 2⟩, none⟩, ⟨⟨4, 0⟩, ⟨7, 2, 2⟩, some "föö"⟩]
    (∀ m ∈ mappings, isBetweenCharacters source m = true) ∧ InOrder mappings ∧
      ∃ map read, ofMappings "a.jsx" source mappings = .ok map ∧ decode map.mappings = some read ∧
        (∀ line, List.Forall₂ (Entry.Records source map.names) (read.getD line [])
          (recorded mappings line)) ∧
        map.names = (mappings.filterMap Mapping.name).eraseDups ∧
        (InOrder mappings → ∀ line,
          ((recorded mappings line).Pairwise fun a b => a.place.column < b.place.column) ∧
          ∀ m, m ∈ recorded mappings line ↔ m.place.line = line ∧ IsLast mappings m) := by
  intro source mappings
  have hcut : ∀ m ∈ mappings, isBetweenCharacters source m = true := by decide
  have horder : InOrder mappings := by
    unfold InOrder
    decide
  exact ⟨hcut, horder, decode_ofMappings "a.jsx" source mappings hcut⟩

end JsxTemplate.SourceMap
