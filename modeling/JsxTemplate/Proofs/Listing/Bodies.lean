import JsxTemplate.Code
import Mathlib.Data.List.TakeWhile

/-!
# The functions in a listing

A listing has the bodies of the functions inside it (`Listing.bodies`). This is additive, and a fragment
has none.
-/

namespace JsxTemplate

@[simp] def Fragment.isMapped : Fragment → Bool
  | .mapped _ _ _ => true
  | .newline | .indent | .dedent | .code _ => false

mutual

/-- The bodies of the functions in a piece, each before those inside it. -/
def Piece.bodies : Piece → List Listing
  | .function _ body => body :: Listing.bodies body
  | _ => []

def Listing.bodies : Listing → List Listing
  | [] => []
  | p :: ps => p.bodies ++ Listing.bodies ps

end

namespace Piece

@[simp] theorem bodies_newline : newline.bodies = [] := rfl
@[simp] theorem bodies_text (t : String) : (text t).bodies = [] := rfl
@[simp] theorem bodies_fragment (f : Fragment) : (fragment f).bodies = [] := rfl
@[simp] theorem bodies_use (v : Variable) (behind : String) : (use v behind).bodies = [] := rfl

end Piece

namespace Listing

theorem bodies_eq_flatMap : bodies = fun l : Listing => l.flatMap Piece.bodies := by
  funext l
  induction l with
  | nil => rfl
  | cons p ps ih => rw [Listing.bodies, ih, List.flatMap_cons]

section Additive

variable {β : Type} {f : Piece → List β} (hf : ∀ x : Fragment, ¬ x.isMapped → f (.fragment x) = [])

include hf

theorem flatMap_ofCode {code : Code} (hcode : ∀ x ∈ code, ¬ x.isMapped) :
    (ofCode code).flatMap f = [] := by
  rw [ofCode, List.flatMap_map]
  exact List.flatMap_eq_nil_iff.mpr fun x hx => hf x (hcode x hx)

theorem flatMap_intersperse {separator : Code} (hs : ∀ x ∈ separator, ¬ x.isMapped)
    (items : List Listing) :
    ((items.intersperse (ofCode separator)).flatten).flatMap f = items.flatMap (·.flatMap f) := by
  match items with
  | [] => rfl
  | [item] => simp
  | item :: next :: items =>
    have ih := flatMap_intersperse hs (next :: items)
    simp only [List.intersperse_cons_cons, List.flatten_cons, List.flatMap_append,
      flatMap_ofCode hf hs, List.nil_append, ih, List.flatMap_cons]

theorem flatMap_list (d : Delimiters) (items : List Listing) :
    (list d items).flatMap f = items.flatMap (·.flatMap f) := by
  have hleft : ∀ x ∈ d.left, ¬ x.isMapped := by cases d <;> decide
  have hright : ∀ x ∈ d.right, ¬ x.isMapped := by cases d <;> decide
  have hseparator : ∀ x ∈ d.separator, ¬ x.isMapped := by cases d <;> decide
  simp only [list, List.flatMap_append, flatMap_ofCode hf hleft, flatMap_ofCode hf hright,
    List.nil_append, List.append_nil, flatMap_intersperse hf hseparator]

theorem flatMap_callWithBlanks (blank name : String) (args : List (Option Listing)) :
    (callWithBlanks blank name args).flatMap f = args.flatMap fun a => (a.getD []).flatMap f := by
  have hblank : ∀ a : Option Listing,
      (a.getD [.text blank]).flatMap f = (a.getD []).flatMap f := by
    intro a
    cases a with
    | none => simp [Piece.text, hf]
    | some l => rfl
  -- the arguments that are left out are missing ones
  have hdrop : (dropMissing args).flatMap (fun a => (a.getD []).flatMap f)
      = args.flatMap fun a => (a.getD []).flatMap f := by
    have hsplit : args = dropMissing args ++ (args.reverse.takeWhile Option.isNone).reverse := by
      rw [dropMissing, ← List.reverse_append, List.takeWhile_append_dropWhile, List.reverse_reverse]
    have hnone : (args.reverse.takeWhile Option.isNone).reverse.flatMap
        (fun a => (a.getD []).flatMap f) = [] := by
      refine List.flatMap_eq_nil_iff.mpr fun a ha => ?_
      have := List.mem_takeWhile_imp (List.mem_reverse.mp ha)
      cases a with
      | none => rfl
      | some l => simp at this
    calc (dropMissing args).flatMap (fun a => (a.getD []).flatMap f)
        = (dropMissing args ++ (args.reverse.takeWhile Option.isNone).reverse).flatMap
            (fun a => (a.getD []).flatMap f) := by
          rw [List.flatMap_append, hnone, List.append_nil]
      _ = args.flatMap fun a => (a.getD []).flatMap f := by rw [← hsplit]
  have hname : f (.text name) = [] := hf _ (by simp)
  simp only [callWithBlanks, List.flatMap_cons, hname, List.nil_append, flatMap_list hf,
    List.flatMap_map, hblank, hdrop]

theorem flatMap_filter_newline (l : Listing) :
    (l.filter fun p => !p.isNewline).flatMap f = l.flatMap f := by
  induction l with
  | nil => rfl
  | cons p ps ih =>
    by_cases hp : p.isNewline = true
    · obtain rfl : p = .fragment .newline := by
        unfold Piece.isNewline at hp
        split at hp
        · rfl
        · exact absurd hp (by simp)
      simp [hf, ih, hp]
    · simp [hp, ih]

theorem flatMap_effectFunction (body : Listing) : (effectFunction body).flatMap f = body.flatMap f := by
  unfold effectFunction
  split
  · simp [Piece.text, Piece.newline, hf]
  · simp [Piece.text, hf, flatMap_filter_newline hf]

end Additive

/-! ## Bodies -/

@[simp] theorem bodies_nil : bodies [] = [] := rfl

@[simp] theorem bodies_cons (p : Piece) (l : Listing) : bodies (p :: l) = p.bodies ++ l.bodies := rfl

@[simp] theorem bodies_append (l₁ l₂ : Listing) : bodies (l₁ ++ l₂) = l₁.bodies ++ l₂.bodies := by
  simp [bodies_eq_flatMap]

@[simp] theorem bodies_ofCode (code : Code) : (ofCode code).bodies = [] := by
  rw [bodies_eq_flatMap, ofCode]
  simp only [List.flatMap_map]
  exact List.flatMap_eq_nil_iff.mpr fun _ _ => rfl

@[simp] theorem bodies_use (v : Variable) : (use v).bodies = [] := by simp [use]

@[simp] theorem bodies_list (d : Delimiters) (items : List Listing) :
    (list d items).bodies = items.flatMap bodies := by
  rw [bodies_eq_flatMap]
  exact flatMap_list (fun _ _ => rfl) d items

@[simp] theorem bodies_callWithBlanks (blank name : String) (args : List (Option Listing)) :
    (callWithBlanks blank name args).bodies = args.flatMap fun a => (a.getD []).bodies := by
  rw [bodies_eq_flatMap]
  exact flatMap_callWithBlanks (fun _ _ => rfl) blank name args

@[simp] theorem bodies_effectFunction (body : Listing) :
    (effectFunction body).bodies = body.bodies := by
  rw [bodies_eq_flatMap]
  exact flatMap_effectFunction (fun _ _ => rfl) body

@[simp] theorem bodies_returning (ids : List Nat) : (returning ids).bodies = [] := by
  match ids with
  | [] => simp [returning]
  | [id] => simp [returning]
  | id :: id' :: ids => simp [returning, List.flatMap_map]

/-- Induction over a listing and the functions inside it. -/
@[elab_as_elim]
theorem nested_induction {P : Listing → Prop} (nil : P [])
    (function : ∀ parameters body l, P body → P l → P (.function parameters body :: l))
    (piece : ∀ p l, p.bodies = [] → P l → P (p :: l)) (l : Listing) : P l := by
  match l with
  | [] => exact nil
  | p :: ps =>
    have ih := nested_induction nil function piece ps
    match p with
    | .function parameters body =>
      exact function parameters body ps (nested_induction nil function piece body) ih
    | .fragment _ | .use _ _ | .clone _ _ | .find _ _ | .textChild _ | .formerValue _ | .make _
    | .insertionState _ | .insertNodes _ _ => exact piece _ ps (by simp [Piece.bodies]) ih
termination_by sizeOf l

end Listing

end JsxTemplate
