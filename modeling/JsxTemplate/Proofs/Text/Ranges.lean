import JsxTemplate.Text.Bytes
import Mathlib.Data.List.Basic

/-!
# Pieces of a text

A text can be cut between any two of its characters. If it is cut at the ends of ranges that stand one
behind the other, the pieces inside of the ranges and those between them make up the text again.
-/

namespace JsxTemplate.Text

variable {s : String}

/-! ## Boundaries -/

theorem byteLength_append (xs ys : List Char) :
    byteLength (xs ++ ys) = byteLength xs + byteLength ys := by
  induction xs with
  | nil => simp [byteLength]
  | cons c cs ih =>
    rw [List.cons_append, byteLength, byteLength, ih]
    omega

theorem eq_nil_of_byteLength {xs : List Char} (h : byteLength xs = 0) : xs = [] := by
  cases xs with
  | nil => rfl
  | cons c cs =>
    have := c.utf8Size_pos
    rw [byteLength] at h
    omega

theorem byteLength_cons (c : Char) (cs : List Char) :
    ∃ n, byteLength (c :: cs) = n + 1 ∧ c.utf8Size ≤ n + 1 ∧ n + 1 - c.utf8Size = byteLength cs := by
  have hpos := c.utf8Size_pos
  rw [byteLength]
  exact ⟨c.utf8Size + byteLength cs - 1, by omega, by omega, by omega⟩

theorem dropBytes_append (xs ys : List Char) : dropBytes (xs ++ ys) (byteLength xs) = some ys := by
  induction xs with
  | nil => cases ys <;> rfl
  | cons c cs ih =>
    obtain ⟨n, hn, hle, hrest⟩ := byteLength_cons c cs
    rw [hn, List.cons_append, dropBytes, if_pos hle, hrest, ih]

theorem takeBytes_append (xs ys : List Char) : takeBytes (xs ++ ys) (byteLength xs) = some xs := by
  induction xs with
  | nil => cases ys <;> rfl
  | cons c cs ih =>
    obtain ⟨n, hn, hle, hrest⟩ := byteLength_cons c cs
    rw [hn, List.cons_append, takeBytes, if_pos hle, hrest, ih]
    rfl

theorem eq_append_of_takeBytes {cs xs : List Char} {n : Nat} (h : takeBytes cs n = some xs) :
    ∃ ys, cs = xs ++ ys ∧ byteLength xs = n := by
  fun_induction takeBytes cs n generalizing xs with
  | case1 cs =>
    obtain rfl := Option.some.inj h
    exact ⟨cs, rfl, rfl⟩
  | case2 n => cases h
  | case3 c cs n hle ih =>
    obtain ⟨rest, hrest, rfl⟩ := Option.map_eq_some_iff.mp h
    obtain ⟨ys, rfl, hlength⟩ := ih hrest
    refine ⟨ys, rfl, ?_⟩
    rw [byteLength]
    omega
  | case4 c cs n hle => cases h

theorem isBoundary_iff {n : Nat} :
    isBoundary s n = true ↔ ∃ xs ys, s.toList = xs ++ ys ∧ byteLength xs = n := by
  rw [isBoundary, Option.isSome_iff_exists]
  constructor
  · rintro ⟨xs, h⟩
    exact ⟨xs, eq_append_of_takeBytes h⟩
  · rintro ⟨xs, ys, hs, rfl⟩
    exact ⟨xs, hs ▸ takeBytes_append xs ys⟩

theorem append_inj_of_byteLength {xs ys xs' ys' : List Char} (h : xs ++ ys = xs' ++ ys')
    (hlength : byteLength xs = byteLength xs') : xs = xs' ∧ ys = ys' := by
  have htake := takeBytes_append xs ys
  rw [h, hlength, takeBytes_append] at htake
  obtain rfl := Option.some.inj htake
  exact ⟨rfl, List.append_cancel_left h⟩

theorem exists_between {m n : Nat} (hm : isBoundary s m = true) (hn : isBoundary s n = true)
    (hle : m ≤ n) :
    ∃ xs ys zs, s.toList = xs ++ ys ++ zs ∧ byteLength xs = m ∧ byteLength (xs ++ ys) = n := by
  obtain ⟨xs, rest, hs, rfl⟩ := isBoundary_iff.mp hm
  obtain ⟨front, zs, hs', rfl⟩ := isBoundary_iff.mp hn
  rcases List.append_eq_append_iff.mp (hs.symm.trans hs') with ⟨ys, rfl, -⟩ | ⟨back, rfl, -⟩
  · exact ⟨xs, ys, zs, hs', rfl, rfl⟩
  · have hback : back = [] := eq_nil_of_byteLength (by rw [byteLength_append] at hle; omega)
    exact ⟨front, [], zs, by simpa using hs', by simp [hback], by simp⟩

theorem slice_eq {xs ys zs : List Char} (h : s.toList = xs ++ ys ++ zs) :
    slice s (byteLength xs) (byteLength (xs ++ ys)) = String.ofList ys := by
  have hlength : byteLength (xs ++ ys) - byteLength xs = byteLength ys := by
    rw [byteLength_append]
    omega
  rw [slice, slice?, if_pos (by rw [byteLength_append]; omega), h, List.append_assoc, dropBytes_append,
    Option.bind_some, hlength, takeBytes_append]
  rfl

@[simp] theorem slice_self (s : String) (n : Nat) : slice s n n = "" := by
  rw [slice, slice?, if_pos (Nat.le_refl n), Nat.sub_self]
  cases dropBytes s.toList n with
  | none => rfl
  | some cs => cases cs <;> rfl

theorem slice_of_le {last next : Nat} (h : last ≤ next) :
    (if last < next then slice s last next else "") = slice s last next := by
  split
  · rfl
  · rw [show next = last by omega, slice_self]

theorem slice_append {l m n : Nat} (hl : isBoundary s l = true) (hm : isBoundary s m = true)
    (hn : isBoundary s n = true) (hlm : l ≤ m) (hmn : m ≤ n) :
    slice s l m ++ slice s m n = slice s l n := by
  obtain ⟨xs, ys, rest, hs, rfl, rfl⟩ := exists_between hl hm hlm
  obtain ⟨front, zs, back, hs', hfront, rfl⟩ := exists_between hm hn hmn
  have hsame : front ++ (zs ++ back) = (xs ++ ys) ++ rest := by rw [← List.append_assoc, ← hs', hs]
  obtain ⟨rfl, rfl⟩ := append_inj_of_byteLength hsame hfront
  have hall : s.toList = xs ++ (ys ++ zs) ++ back := by rw [hs', List.append_assoc xs]
  rw [slice_eq hs, slice_eq hs', List.append_assoc, slice_eq hall, String.ofList_append]

/-! ## Ranges -/

/-- The ranges of bytes of a text stand one behind the other between two bytes, and the text can be cut at
all of them. -/
inductive Cut (s : String) (stop : Nat) : Nat → List (Nat × Nat) → Prop where
  | nil {start : Nat} : isBoundary s start = true → isBoundary s stop = true → start ≤ stop → Cut s stop start []
  | cons {start : Nat} {range : Nat × Nat} {ranges : List (Nat × Nat)} :
    isBoundary s start = true → isBoundary s range.1 = true → start ≤ range.1 → range.1 ≤ range.2 →
    Cut s stop range.2 ranges → Cut s stop start (range :: ranges)

/-- The pieces of a text between some ranges of bytes, from a byte up to `stop`. -/
def gaps (s : String) (stop : Nat) : Nat → List (Nat × Nat) → List String
  | start, [] => [slice s start stop]
  | start, range :: ranges => slice s start range.1 :: gaps s stop range.2 ranges

/-- Some texts with others between them. -/
def weave : List String → List String → String
  | gap :: gaps, x :: xs => gap ++ x ++ weave gaps xs
  | gaps, _ => String.join gaps

theorem Cut.boundary {stop start : Nat} {ranges : List (Nat × Nat)} (h : Cut s stop start ranges) :
    isBoundary s start = true ∧ isBoundary s stop = true ∧ start ≤ stop := by
  induction h with
  | nil hstart hstop hle => exact ⟨hstart, hstop, hle⟩
  | cons hstart _ hbefore hrange _ ih =>
    obtain ⟨-, hstop, hle⟩ := ih
    exact ⟨hstart, hstop, by omega⟩

theorem weave_gaps {stop start : Nat} {ranges : List (Nat × Nat)} (h : Cut s stop start ranges) :
    weave (gaps s stop start ranges) (ranges.map fun range => slice s range.1 range.2) =
      slice s start stop := by
  induction h with
  | nil => simp [gaps, weave]
  | @cons start range ranges hstart hfirst hbefore hrange hrest ih =>
    obtain ⟨hlast, hstop, hle⟩ := hrest.boundary
    rw [gaps, List.map_cons, weave, ih, slice_append hstart hfirst hlast hbefore hrange,
      slice_append hstart hlast hstop (by omega) hle]

end JsxTemplate.Text
