import Mathlib.Data.List.DropRight
import JsxTemplate.Template.Reader
import JsxTemplate.Proofs.Text.Ranges

/-!
# Positions

The position of an offset is found in the table of line breaks, and inside a piece of the source by walking
over the piece from where it starts. Both come from one step for each byte (`Position.step`), so they agree at
every offset, also at line breaks and inside of characters.
-/

namespace JsxTemplate

/-- For each byte of a text, the character it belongs to. -/
def Text.owners (cs : List Char) : List Char :=
  cs.flatMap fun c => List.replicate c.utf8Size c

theorem Text.owners_cons (c : Char) (cs : List Char) :
    Text.owners (c :: cs) = List.replicate c.utf8Size c ++ Text.owners cs := rfl

theorem Text.length_owners (cs : List Char) : (Text.owners cs).length = Text.byteLength cs := by
  induction cs with
  | nil => rfl
  | cons c cs ih => rw [Text.owners_cons, List.length_append, List.length_replicate, ih, Text.byteLength]

theorem Text.byteLength_toList (s : String) : Text.byteLength s.toList = s.utf8ByteSize := by
  have hsize : ∀ cs, (String.ofList cs).utf8ByteSize = Text.byteLength cs := by
    intro cs
    induction cs with
    | nil => rfl
    | cons c cs ih =>
      rw [String.ofList_cons, String.utf8ByteSize_append, String.utf8ByteSize_singleton, ih, Text.byteLength]
  rw [← hsize, String.ofList_toList]

theorem Text.owners_append (xs ys : List Char) :
    Text.owners (xs ++ ys) = Text.owners xs ++ Text.owners ys :=
  List.flatMap_append

namespace Position

/-- The position behind a byte of the character `c`. -/
def step (p : Position) (c : Char) : Position :=
  if c == '\n' then ⟨p.offset + 1, p.line + 1, 1⟩ else ⟨p.offset + 1, p.line, p.column + 1⟩

/-- The offset at which the last line of some bytes starts. -/
def lineStart (bytes : List Char) : Nat :=
  bytes.length - (bytes.rtakeWhile (· != '\n')).length

/-- The position behind some bytes, of which it counts the line breaks and the last line. -/
def behind (bytes : List Char) : Position :=
  ⟨bytes.length, 1 + bytes.count '\n', bytes.length - lineStart bytes + 1⟩

theorem behind_append (bytes : List Char) (c : Char) : behind (bytes ++ [c]) = (behind bytes).step c := by
  have hline : ∀ bytes, bytes.length - lineStart bytes = (bytes.rtakeWhile (· != '\n')).length := fun bytes =>
    Nat.sub_sub_self (List.rtakeWhile_suffix _ _).length_le
  rw [behind, hline, step, List.count_append, List.rtakeWhile_concat]
  by_cases hc : c = '\n'
  · simp [behind, hc, Nat.add_assoc]
  · simp [behind, hline, hc]

theorem foldl_step (bytes : List Char) : bytes.foldl step first = behind bytes := by
  induction bytes using List.reverseRecOn with
  | nil => rfl
  | append_singleton bytes c ih => rw [List.foldl_append, ih, behind_append]; rfl

theorem foldl_step_replicate (p : Position) {c : Char} (hc : (c == '\n') = false) (k : Nat) :
    (List.replicate k c).foldl step p = ⟨p.offset + k, p.line, p.column + k⟩ := by
  induction k generalizing p with
  | zero => rfl
  | succ k ih =>
    rw [List.replicate_succ, List.foldl_cons, ih, step, hc]
    simp only [Bool.false_eq_true, if_false, mk.injEq, true_and]
    omega

theorem advance_eq (p : Position) (cs : List Char) (n : Nat) :
    p.advance cs n = ((Text.owners cs).take n).foldl step p := by
  fun_induction advance p cs n with
  | case1 p n => simp [Text.owners]
  | case2 p c cs => rfl
  | case3 p c cs n hc ih =>
    obtain rfl := eq_of_beq hc
    rw [ih, Text.owners_cons]
    rfl
  | case4 p c cs n hc k ih =>
    rw [ih, Text.owners_cons, List.take_append, List.take_replicate, List.foldl_append, List.length_replicate,
      foldl_step_replicate p (Bool.eq_false_iff.mpr hc), Nat.min_comm (n + 1),
      show n + 1 - c.utf8Size = n + 1 - k by omega]

end Position

namespace LineTable

theorem le_of_mem_breaksFrom {offset x : Nat} {cs : List Char} (h : x ∈ breaksFrom offset cs) :
    offset ≤ x := by
  induction cs generalizing offset with
  | nil => cases h
  | cons c cs ih =>
    rw [breaksFrom] at h
    split at h
    · obtain rfl | h := List.mem_cons.mp h
      · exact Nat.le_refl x
      · exact Nat.le_of_succ_le (ih h)
    · exact Nat.le_of_add_right_le (ih h)

theorem takeWhile_breaksFrom {offset n : Nat} (h : n ≤ offset) (cs : List Char) :
    (breaksFrom offset cs).takeWhile (· < n) = [] := by
  cases hbreaks : breaksFrom offset cs with
  | nil => rfl
  | cons x breaks =>
    have hle : offset ≤ x := le_of_mem_breaksFrom (hbreaks ▸ List.mem_cons_self)
    exact List.takeWhile_cons_of_neg (by simp; omega)

/-- The position of an offset behind some line breaks, the first of which are counted from `p`. -/
def positionFrom (p : Position) (before : List Nat) (offset : Nat) : Position :=
  ⟨offset, p.line + before.length, match before.getLast? with
    | none => p.column + (offset - p.offset)
    | some lineBreak => offset - lineBreak⟩

theorem positionFrom_cons (p : Position) (before : List Nat) {offset : Nat} (h : p.offset < offset) :
    positionFrom p (p.offset :: before) offset = positionFrom ⟨p.offset + 1, p.line + 1, 1⟩ before offset := by
  rw [positionFrom, positionFrom, List.getLast?_cons, List.length_cons]
  cases before.getLast? <;> simp <;> omega

theorem positionFrom_add (p : Position) (k : Nat) (before : List Nat) {offset : Nat}
    (h : p.offset + k ≤ offset) :
    positionFrom ⟨p.offset + k, p.line, p.column + k⟩ before offset = positionFrom p before offset := by
  rw [positionFrom, positionFrom]
  cases before.getLast? <;> simp
  omega

theorem positionFrom_eq {p : Position} {cs : List Char} {n offset : Nat} (h : n ≤ Text.byteLength cs)
    (hoffset : p.offset + n = offset) :
    positionFrom p ((breaksFrom p.offset cs).takeWhile (· < offset)) offset = p.advance cs n := by
  fun_induction Position.advance p cs n with
  | case1 p n =>
    obtain rfl : n = 0 := Nat.le_zero.mp h
    simp [positionFrom, breaksFrom, ← hoffset]
  | case2 p c cs => simp [positionFrom, takeWhile_breaksFrom, ← hoffset]
  | case3 p c cs n hc ih =>
    obtain rfl := eq_of_beq hc
    rw [Text.byteLength, show '\n'.utf8Size = 1 from rfl] at h
    rw [← ih (by omega) (by dsimp only; omega), breaksFrom, if_pos hc,
      List.takeWhile_cons_of_pos (by simp; omega), positionFrom_cons p _ (by omega)]
  | case4 p c cs n hc k ih =>
    rw [Text.byteLength] at h
    rw [breaksFrom, if_neg hc]
    by_cases hk : c.utf8Size ≤ n + 1
    · have hk' : k = c.utf8Size := Nat.min_eq_left hk
      rw [← ih (by omega) (by dsimp only; omega), hk', positionFrom_add p _ _ (by omega)]
    · -- the offset is inside of this character
      have hk' : k = n + 1 := Nat.min_eq_right (by omega)
      rw [hk', takeWhile_breaksFrom (by omega), Nat.sub_self]
      cases cs <;> simp [positionFrom, Position.advance, ← hoffset]

theorem position_eq {source : String} {n : Nat} (h : n ≤ source.utf8ByteSize) :
    (ofSource source).position n = Position.first.advance source.toList n := by
  rw [← Text.byteLength_toList] at h
  rw [← positionFrom_eq h (Nat.zero_add n), position, positionFrom]
  dsimp only [ofSource, Position.first]
  cases hlast : ((breaksFrom 0 source.toList).takeWhile (· < n)).getLast? with
  | none => simp [List.getLast?_eq_none_iff.mp hlast, Nat.add_comm]
  | some lineBreak => simp [Nat.add_comm]

end LineTable

/-! ## Pieces of the source -/

namespace Text

theorem dropBytes_add (xs ys : List Char) (n : Nat) :
    dropBytes (xs ++ ys) (byteLength xs + n) = dropBytes ys n := by
  induction xs with
  | nil => rw [byteLength, Nat.zero_add, List.nil_append]
  | cons c cs ih =>
    obtain ⟨m, hm, hle, hrest⟩ := byteLength_cons c cs
    rw [hm, Nat.add_right_comm, List.cons_append, dropBytes, if_pos (by omega),
      show m + n + 1 - c.utf8Size = byteLength cs + n by omega, ih]

theorem takeBytes_append_of_le {xs : List Char} {n : Nat} (h : n ≤ byteLength xs) (ys : List Char) :
    takeBytes (xs ++ ys) n = takeBytes xs n := by
  fun_induction takeBytes xs n with
  | case1 xs => cases xs <;> cases ys <;> rfl
  | case2 n => cases h
  | case3 c cs n hle ih =>
    rw [byteLength] at h
    rw [List.cons_append, takeBytes, if_pos hle, ih (by omega)]
  | case4 c cs n hle => rw [List.cons_append, takeBytes, if_neg hle]

theorem bytes_append_of_le {xs : List Char} {start stop : Nat} (hle : start ≤ stop)
    (hstop : stop ≤ byteLength xs) (ys : List Char) :
    ((dropBytes (xs ++ ys) start).bind fun cs => takeBytes cs (stop - start)) =
      (dropBytes xs start).bind fun cs => takeBytes cs (stop - start) := by
  fun_induction dropBytes xs start generalizing stop with
  | case1 xs =>
    have hall : dropBytes (xs ++ ys) 0 = some (xs ++ ys) := by cases xs <;> cases ys <;> rfl
    rw [hall, Option.bind_some, Option.bind_some, Nat.sub_zero, takeBytes_append_of_le hstop]
  | case2 n =>
    rw [byteLength] at hstop
    omega
  | case3 c cs n hsize ih =>
    rw [byteLength] at hstop
    rw [List.cons_append, dropBytes, if_pos hsize,
      show stop - (n + 1) = stop - c.utf8Size - (n + 1 - c.utf8Size) by omega,
      ih (by omega) (by omega)]
  | case4 c cs n hsize => rw [List.cons_append, dropBytes, if_neg hsize]

/-- A range of a piece of a text is a range of the text, also if its ends are inside of characters. -/
theorem slice_piece {s : String} {xs ys zs : List Char} (h : s.toList = xs ++ ys ++ zs) {start stop : Nat}
    (hle : start ≤ stop) (hstop : stop ≤ byteLength ys) :
    slice s (byteLength xs + start) (byteLength xs + stop) = slice (String.ofList ys) start stop := by
  rw [slice, slice, slice?, slice?, if_pos hle, if_pos (by omega), h, List.append_assoc, dropBytes_add,
    Nat.add_sub_add_left, bytes_append_of_le hle hstop, String.toList_ofList]

end Text

theorem Position.advance_piece {xs ys zs : List Char} {n : Nat} (h : n ≤ Text.byteLength ys) :
    first.advance (xs ++ ys ++ zs) (Text.byteLength xs + n) =
      (first.advance (xs ++ ys ++ zs) (Text.byteLength xs)).advance ys n := by
  rw [← Text.length_owners] at h
  simp only [advance_eq, Text.owners_append, ← Text.length_owners, List.append_assoc,
    List.take_length_add_append, List.take_left, List.take_append_of_le_length h, List.foldl_append]

namespace LineTable

theorem location_eq {source : String} {start stop : Nat} (hle : start ≤ stop)
    (hstop : stop ≤ source.utf8ByteSize) :
    (ofSource source).location start stop =
      ⟨Position.first.advance source.toList start, Position.first.advance source.toList stop,
        Text.slice source start stop⟩ := by
  have hmin : min stop source.utf8ByteSize = stop := Nat.min_eq_left hstop
  rw [← position_eq hstop, ← position_eq (hle.trans hstop), location]
  simp only [ofSource, hmin, Nat.min_eq_left hle]

end LineTable

theorem Position.offset_advance {cs : List Char} {n : Nat} (h : n ≤ Text.byteLength cs) :
    (first.advance cs n).offset = n := by
  rw [← Text.length_owners] at h
  rw [advance_eq, foldl_step, behind, List.length_take, Nat.min_eq_left h]

theorem Template.subLocation_expressionAt {source : String} {xs ys zs : List Char}
    (h : source.toList = xs ++ ys ++ zs) {a b : Nat} (hab : a ≤ b) (hb : b ≤ Text.byteLength ys) :
    (expressionAt (.ofSource source) ⟨Text.byteLength xs, Text.byteLength (xs ++ ys)⟩).subLocation a b =
      (LineTable.ofSource source).location (Text.byteLength xs + a) (Text.byteLength xs + b) := by
  have hsum := Text.byteLength_append xs ys
  have hsize : Text.byteLength (xs ++ ys) ≤ Text.byteLength (xs ++ ys ++ zs) := by
    rw [Text.byteLength_append (xs ++ ys)]
    omega
  have hsource : source.utf8ByteSize = Text.byteLength (xs ++ ys ++ zs) := by
    rw [← Text.byteLength_toList, h]
  rw [LineTable.location_eq (by omega) (by omega), Expression.subLocation, expressionAt, locate,
    LineTable.location_eq (by dsimp only; omega) (by dsimp only; omega)]
  simp only [Text.slice_eq h, h, String.toList_ofList, Location.isStub]
  rw [Position.offset_advance (by omega), Position.offset_advance hsize]
  split
  · next hstub =>
    -- only nothing at the start of the source is without a place, and it is there
    obtain ⟨-, hnone⟩ : Text.byteLength xs = 0 ∧ Text.byteLength (xs ++ ys) = 0 := by simpa using hstub
    obtain ⟨rfl, rfl⟩ : a = 0 ∧ b = 0 := by omega
    obtain ⟨rfl, rfl⟩ := List.append_eq_nil_iff.mp (Text.eq_nil_of_byteLength hnone)
    rw [Text.slice_self]
    cases zs <;> rfl
  · rw [Position.advance_piece hb, Position.advance_piece (hab.trans hb), Text.slice_piece h hab hb]

/-- The position of an offset counts the line breaks in front of it and the bytes from the start of its line.
A piece of an expression has the same place whether it is found in the source or by walking over the expression
from where that starts. -/
theorem subLocation_eq_location (source : String) :
    (∀ offset ≤ source.utf8ByteSize, (LineTable.ofSource source).position offset =
      .behind ((Text.owners source.toList).take offset)) ∧
    ∀ s e, Text.isBoundary source s = true → Text.isBoundary source e = true → s ≤ e →
      ∀ a b, a ≤ b → b ≤ e - s →
        (Template.expressionAt (.ofSource source) ⟨s, e⟩).subLocation a b =
          (LineTable.ofSource source).location (s + a) (s + b) := by
  refine ⟨fun offset h => ?_, fun s e hs he hse a b hab hb => ?_⟩
  · rw [LineTable.position_eq h, Position.advance_eq, Position.foldl_step]
  · obtain ⟨xs, ys, zs, hsource, rfl, rfl⟩ := Text.exists_between hs he hse
    have hsum := Text.byteLength_append xs ys
    exact Template.subLocation_expressionAt hsource hab (by omega)

/-- A piece behind a line break inside of the expression, with a character of two bytes in front of it. -/
theorem subLocation_eq_location_lines :
    let source := "a=\x7bé\n + b\x7d"
    let table := LineTable.ofSource source
    (table.position 7 = .behind ((Text.owners source.toList).take 7)) ∧
    Text.isBoundary source 3 = true ∧ Text.isBoundary source 10 = true ∧
    (Template.expressionAt table ⟨3, 10⟩).subLocation 6 7 = table.location 9 10 ∧
    table.location 9 10 = ⟨⟨9, 2, 4⟩, ⟨10, 2, 5⟩, "b"⟩ := by
  refine ⟨?_, by decide +kernel, by decide +kernel, ?_, by decide +kernel⟩
  · exact (subLocation_eq_location _).1 7 (by decide +kernel)
  · exact (subLocation_eq_location _).2 3 10 (by decide +kernel) (by decide +kernel) (by decide) 6 7
      (by decide) (by decide)

end JsxTemplate
