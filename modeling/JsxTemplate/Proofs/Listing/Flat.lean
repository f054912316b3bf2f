import JsxTemplate.Proofs.Listing.Bodies

/-!
# Flat code

What is written without entering a block has no functions in it, and sets a field of a node only for a
listener at the document. It also closes every level of indentation that it opens, and no other one
(`Code.IsLevel`).
-/

namespace JsxTemplate

theorem flatten_intersperse {α : Type} {P : List α → Prop} (hnil : P [])
    (happend : ∀ {a b : List α}, P a → P b → P (a ++ b)) {separator : List α} (hs : P separator)
    {items : List (List α)} (h : ∀ item ∈ items, P item) : P (items.intersperse separator).flatten := by
  match items with
  | [] => exact hnil
  | [item] => simpa using h item List.mem_cons_self
  | item :: next :: items =>
    have ih := flatten_intersperse hnil happend hs fun i hi => h i (List.mem_cons_of_mem item hi)
    rw [List.intersperse_cons_cons, List.flatten_cons, List.flatten_cons]
    exact happend (h item List.mem_cons_self) (happend hs ih)

theorem mem_of_mem_dropMissing {α : Type} {items : List (Option α)} {item : Option α}
    (h : item ∈ dropMissing items) : item ∈ items :=
  List.mem_reverse.mp ((List.dropWhile_suffix _).subset (List.mem_reverse.mp h))

/-! ## Levels of indentation -/

/-- The level of indentation behind a fragment, unless it closes a level where none is open. -/
def Fragment.level? : Fragment → Nat → Option Nat
  | .indent, level => some (level + 1)
  | .dedent, 0 => none
  | .dedent, level + 1 => some level
  | .newline, level | .code _, level | .mapped _ _ _, level => some level

namespace Code

/-- The level of indentation behind code, unless it closes a level where none is open. -/
def level? : Code → Nat → Option Nat
  | [], level => some level
  | f :: fs, level => (f.level? level).bind (level? fs)

/-- Whether code closes the levels of indentation that it opens, and no other ones. -/
def IsLevel (code : Code) : Prop := ∀ level, code.level? level = some level

variable {c c' : Code}

theorem level?_append (c c' : Code) (level : Nat) :
    (c ++ c').level? level = (c.level? level).bind (level? c') := by
  induction c generalizing level with
  | nil => rfl
  | cons f c ih =>
    rw [List.cons_append, level?, level?]
    cases f.level? level with
    | none => rfl
    | some next => exact ih next

@[simp] theorem isLevel_nil : IsLevel [] := fun _ => rfl

@[simp] theorem isLevel_cons_newline : IsLevel (.newline :: c) ↔ c.IsLevel := Iff.rfl

@[simp] theorem isLevel_cons_code (text : String) : IsLevel (.code text :: c) ↔ c.IsLevel := Iff.rfl

@[simp] theorem isLevel_cons_mapped (text : String) (loc : Location) (name : Option String) :
    IsLevel (.mapped text loc name :: c) ↔ c.IsLevel := Iff.rfl

@[simp] theorem isLevel_text (s : String) : (text s).IsLevel := isLevel_nil

/-- Code between a fragment that opens a level and one that closes it again. -/
theorem IsLevel.around {left right : Code} (h : c.IsLevel)
    (hends : ∀ level, ∃ inner, left.level? level = some inner ∧ right.level? inner = some level) :
    (left ++ c ++ right).IsLevel := by
  intro level
  obtain ⟨inner, hleft, hright⟩ := hends level
  rw [level?_append, level?_append, hleft, Option.bind_some, h inner, Option.bind_some, hright]

/-- Code with a line of its own between two texts. -/
theorem IsLevel.inside (h : c.IsLevel) (opening closing : String) :
    ([.code opening, .indent] ++ c ++ [.dedent, .newline, .code closing] : Code).IsLevel :=
  h.around fun level => ⟨level + 1, rfl, rfl⟩

@[simp] theorem isLevel_append (h : c.IsLevel) : IsLevel (c ++ c') ↔ c'.IsLevel :=
  forall_congr' fun level => by rw [level?_append, h level, Option.bind_some]

theorem IsLevel.append (h : c.IsLevel) (h' : c'.IsLevel) : (c ++ c').IsLevel := (isLevel_append h).mpr h'

theorem IsLevel.flatten {items : List Code} (h : ∀ c ∈ items, c.IsLevel) : IsLevel items.flatten := by
  induction items with
  | nil => exact isLevel_nil
  | cons c items ih =>
    exact (h c List.mem_cons_self).append (ih fun c hc => h c (List.mem_cons_of_mem _ hc))

theorem level?_delimiters (d : Delimiters) (level : Nat) :
    ∃ inner, d.left.level? level = some inner ∧ d.right.level? inner = some level := by
  cases d <;> exact ⟨_, rfl, rfl⟩

theorem IsLevel.list (d : Delimiters) {items : List Code} (h : ∀ c ∈ items, c.IsLevel) :
    (list d items).IsLevel := by
  have hseparator : d.separator.IsLevel := by cases d <;> exact fun _ => rfl
  exact IsLevel.around (flatten_intersperse isLevel_nil .append hseparator h) (level?_delimiters d)

theorem IsLevel.listWithBlanks (d : Delimiters) (blank : String) {items : List (Option Code)}
    (h : ∀ item ∈ items, ∀ c ∈ item, c.IsLevel) : (listWithBlanks d blank items).IsLevel := by
  refine IsLevel.list d fun c hc => ?_
  obtain ⟨item, hitem, rfl⟩ := List.mem_map.mp hc
  cases item with
  | none => exact isLevel_nil
  | some c => exact h _ (mem_of_mem_dropMissing hitem) c rfl

theorem IsLevel.call (name : String) {args : List (Option Code)} (h : ∀ a ∈ args, ∀ c ∈ a, c.IsLevel) :
    (call name args).IsLevel :=
  IsLevel.listWithBlanks .args "null" h

end Code

/-! ## Fields -/

/-- The fields of variables that a piece sets, as the text between the variable and the value. -/
def Piece.fields : Piece → List (Variable × String)
  | .use v behind => if behind.toList.head? = some '.' then [(v, behind)] else []
  | _ => []

/-- The fields of variables that a listing sets, outside of the functions in it. -/
def Listing.fields (l : Listing) : List (Variable × String) := l.flatMap Piece.fields

/-- Whether a piece is no function, sets no field and stays on its level of indentation. -/
def Piece.isPlain : Piece → Bool
  | .fragment f => f != .indent && f != .dedent
  | .use _ behind => behind.toList.head? != some '.'
  | .function _ _ => false
  | .clone _ _ | .find _ _ | .textChild _ | .formerValue _ | .make _ | .insertionState _
  | .insertNodes _ _ => true

namespace Listing

variable {l l' : Listing} {own : List String}

@[simp] theorem fields_append (l₁ l₂ : Listing) : fields (l₁ ++ l₂) = l₁.fields ++ l₂.fields :=
  List.flatMap_append

@[simp] theorem fields_list (d : Delimiters) (items : List Listing) :
    (list d items).fields = items.flatMap fields :=
  flatMap_list (fun _ _ => rfl) d items

theorem code_append (l r : Listing) : (l ++ r).code = l.code ++ r.code := by
  induction l with
  | nil => rfl
  | cons p l ih => simp only [List.cons_append, Listing.code, ih, List.append_assoc]

theorem code_ofCode (code : Code) : (ofCode code).code = code := by
  induction code with
  | nil => rfl
  | cons f code ih => rw [ofCode, List.map_cons, Listing.code, Piece.code, ← ofCode, ih, List.singleton_append]

/-! ## Flat listings -/

/-- Whether a listing has no functions, sets no fields unless it catches events of its own, and is level. -/
structure Flat (own : List String) (l : Listing) : Prop where
  bodies : l.bodies = []
  fields : own = [] → l.fields = []
  level : l.code.IsLevel

abbrev Plain (l : Listing) : Prop := Flat [] l

theorem Plain.nil : Plain [] := ⟨rfl, fun _ => rfl, Code.isLevel_nil⟩

theorem Plain.append (h : l.Plain) (h' : l'.Plain) : Plain (l ++ l') where
  bodies := by rw [bodies_append, h.bodies, h'.bodies, List.nil_append]
  fields _ := by rw [fields_append, h.fields rfl, h'.fields rfl, List.nil_append]
  level := by rw [code_append]; exact h.level.append h'.level

theorem plain_ofCode {code : Code} (h : code.IsLevel) : (ofCode code).Plain where
  bodies := bodies_ofCode code
  fields _ := by
    rw [Listing.fields, ofCode, List.flatMap_map]
    exact List.flatMap_eq_nil_iff.mpr fun _ _ => rfl
  level := by rwa [code_ofCode]

theorem isLevel_route (r : Route) : r.code.IsLevel := by
  cases r <;> simp [Route.code, Code.IsLevel.call]

theorem isLevel_insertNodes (elements : List Nat) (into : Insertion) :
    (Code.insertNodes elements into).IsLevel := by
  unfold Code.insertNodes
  split
  · exact .call _ (by simp)
  · refine .call _ ?_
    rcases into.anchor with _ | _ | _ <;> simp

theorem isLevel_piece {p : Piece} (hp : p.isPlain = true) : p.code.IsLevel := by
  cases p with
  | fragment f => cases f <;> simp_all [Piece.isPlain, Piece.code]
  | find v r => simpa [Piece.code] using isLevel_route r
  | insertionState into =>
    rw [Piece.code, Code.insertionState]
    refine .call _ ?_
    rcases into.anchor with _ | _ | _ <;> simp
  | insertNodes elements into =>
    rw [Piece.code]
    exact isLevel_insertNodes elements into
  | function parameters body => cases hp
  | _ => simp [Piece.code]

theorem plain_of_isPlain {p : Piece} (hp : p.isPlain = true) : Plain [p] where
  bodies := by cases p <;> simp_all [Piece.isPlain, Piece.bodies]
  fields _ := by cases p <;> simp_all [Piece.isPlain, fields, Piece.fields]
  level := by
    rw [Listing.code, Listing.code, List.append_nil]
    exact isLevel_piece hp

theorem Plain.cons {p : Piece} (hp : p.isPlain = true) (h : l.Plain) : Plain (p :: l) :=
  (plain_of_isPlain hp).append h

@[simp] theorem plain_text (s : String) : Plain [.text s] := plain_of_isPlain rfl

@[simp] theorem plain_use (v : Variable) : (use v).Plain := plain_of_isPlain rfl

theorem Plain.list (d : Delimiters) {items : List Listing} (h : ∀ item ∈ items, item.Plain) :
    (list d items).Plain where
  bodies := by
    rw [bodies_list]
    exact List.flatMap_eq_nil_iff.mpr fun item hitem => (h item hitem).bodies
  fields _ := by
    rw [fields_list]
    exact List.flatMap_eq_nil_iff.mpr fun item hitem => (h item hitem).fields rfl
  level := by
    have hseparator : Plain (ofCode d.separator) :=
      plain_ofCode (by cases d <;> exact fun _ => rfl)
    have hitems := flatten_intersperse .nil .append hseparator h
    rw [Listing.list, code_append, code_append, code_ofCode, code_ofCode]
    exact hitems.level.around (Code.level?_delimiters d)

theorem Plain.callWithBlanks (blank name : String) {args : List (Option Listing)}
    (h : ∀ a ∈ args, ∀ l ∈ a, l.Plain) : (callWithBlanks blank name args).Plain := by
  refine .cons rfl (.list _ fun item hitem => ?_)
  obtain ⟨a, ha, rfl⟩ := List.mem_map.mp hitem
  cases a with
  | none => exact .cons rfl .nil
  | some l => exact h _ (mem_of_mem_dropMissing ha) l rfl

/-- Whether code may stand between two listings: the levels that are opened before it are closed behind. -/
structure Frames (left right : Listing) : Prop where
  bodies : (left ++ right).bodies = []
  fields : (left ++ right).fields = []
  levels : ∀ level, ∃ inner,
    left.code.level? level = some inner ∧ right.code.level? inner = some level

theorem frames_delimiters (d : Delimiters) : Frames (ofCode d.left) (ofCode d.right) := by
  refine ⟨by simp, by cases d <;> rfl, fun level => ?_⟩
  rw [code_ofCode, code_ofCode]
  exact Code.level?_delimiters d level

theorem plain_returning (ids : List Nat) : (returning ids).Plain := by
  match ids with
  | [] => exact .cons rfl (.cons rfl (.cons rfl .nil))
  | [id] => exact .cons rfl (.cons rfl (plain_use _))
  | id :: id' :: ids => exact .cons rfl (.cons rfl (.list _ (by simp)))

end Listing

end JsxTemplate
