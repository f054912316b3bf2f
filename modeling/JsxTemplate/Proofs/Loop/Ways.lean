import JsxTemplate.Code.Loop
import JsxTemplate.Proofs.Script.Semantics

/-!
# The ways to the names of a pattern

From a value to what a name of a pattern is bound to one goes step by step (`Move`): to a property, to an
element, to what remains, or to a default. The code for an item of a loop takes only the steps to
properties and elements, one behind the other, and applies the last of the others at the end.
-/

namespace JsxTemplate

open Script (Key Semantics Scope Tree)

inductive Move where
  | property (key : Key)
  | element (index : Nat)
  | remaining (index : Nat)
  | others (keys : List Key)
  /-- The value of an expression if the value is missing. -/
  | default (expression : String)
  deriving DecidableEq, Repr

/-- The key as a literal or an expression. -/
def Script.Key.written : Key → String
  | .name text => Text.quote text
  | .string value _ => Text.quote value
  | .computed expression => expression

namespace Move

def isHelper : Move → Bool
  | .others _ | .default _ => true
  | _ => false

def text : Move → String
  | .property (.name text) => "." ++ text
  | .property key => "[" ++ key.written ++ "]"
  | .element index => "[" ++ toString index ++ "]"
  | .remaining index => ".slice(" ++ toString index ++ ")"
  | .others _ | .default _ => ""

def helper? : Move → Option LoopHelper
  | .others keys => some (.rest ("[" ++ ", ".intercalate (keys.map Key.written) ++ "]"))
  | .default expression => some (.default expression)
  | _ => none

end Move

structure Way where
  name : String
  moves : List Move
  deriving DecidableEq, Repr

namespace Way

def path : List Move → String
  | [] => ""
  | m :: ms => m.text ++ path ms

def lastHelper? (moves : List Move) : Option Move := (moves.filter Move.isHelper).getLast?

def binding (w : Way) : LoopBinding :=
  ⟨w.name, path w.moves, (lastHelper? w.moves).bind Move.helper?⟩

theorem path_append (ms ms' : List Move) : path (ms ++ ms') = path ms ++ path ms' := by
  induction ms with
  | nil => simp [path]
  | cons m ms ih => rw [List.cons_append, path, path, ih, String.append_assoc]

theorem path_snoc (ms : List Move) (m : Move) : path (ms ++ [m]) = path ms ++ m.text := by
  rw [path_append, path, path, String.append_empty]

theorem lastHelper?_snoc_of_isHelper (ms : List Move) {m : Move} (h : m.isHelper = true) :
    lastHelper? (ms ++ [m]) = some m := by
  simp [lastHelper?, h]

theorem lastHelper?_snoc_of_not_isHelper (ms : List Move) {m : Move} (h : m.isHelper = false) :
    lastHelper? (ms ++ [m]) = lastHelper? ms := by
  simp [lastHelper?, h]

section

variable (script : String)

mutual

/-- The ways to the names of a pattern, if its value is found by `moves`. -/
def ofPattern (moves : List Move) : Tree → List Way
  | .node (.binding name) _ _ => [⟨name, moves⟩]
  | .node .objectPattern _ properties => ofProperties moves [] properties
  | .node .arrayPattern _ elements => ofElements moves 0 elements
  | .node .withDefault _ [pattern, value] =>
    ofPattern (moves ++ [.default (LoopBinding.textOf script value)]) pattern
  | _ => []

def ofProperties (moves : List Move) (keys : List Key) : List Tree → List Way
  | [] => []
  | .node (.patternProperty computed) _ [key, value] :: ps =>
    ofPattern (moves ++ [.property (.ofTree script computed key)]) value
      ++ ofProperties moves (keys ++ [.ofTree script computed key]) ps
  | .node .rest _ [pattern] :: ps =>
    ofPattern (moves ++ [.others keys]) pattern ++ ofProperties moves keys ps
  | _ :: ps => ofProperties moves keys ps

def ofElements (moves : List Move) (index : Nat) : List Tree → List Way
  | [] => []
  | .node .elision _ _ :: es => ofElements moves (index + 1) es
  | .node .rest _ [pattern] :: es =>
    ofPattern (moves ++ [.remaining index]) pattern ++ ofElements moves index es
  | e :: es => ofPattern (moves ++ [.element index]) e ++ ofElements moves (index + 1) es

end

/-! ## The names of a loop -/

theorem stepTo_eq (computed : Bool) (key : Tree) :
    LoopBinding.stepTo script computed key =
      ((Move.property (.ofTree script computed key)).text, (Key.ofTree script computed key).written) := by
  unfold LoopBinding.stepTo Key.ofTree
  generalize key.kind = kind
  cases kind with
  | name text => cases computed <;> rfl
  | _ => rfl

def helperOf (moves : List Move) : Option LoopHelper := (lastHelper? moves).bind Move.helper?

theorem helperOf_snoc (moves : List Move) {m : Move} (h : m.isHelper = false) :
    helperOf (moves ++ [m]) = helperOf moves := by
  rw [helperOf, lastHelper?_snoc_of_not_isHelper moves h, helperOf]

theorem helperOf_snoc_of_isHelper (moves : List Move) {m : Move} (h : m.isHelper = true) :
    helperOf (moves ++ [m]) = m.helper? := by
  rw [helperOf, lastHelper?_snoc_of_isHelper moves h, Option.bind_some]

theorem bindings_eq :
    (∀ moves t, LoopBinding.ofPattern script (path moves) (helperOf moves) t =
      (ofPattern script moves t).map binding) ∧
    (∀ moves index es, LoopBinding.ofElements script (path moves) (helperOf moves) index es =
      (ofElements script moves index es).map binding) ∧
    ∀ moves keys ps, LoopBinding.ofProperties script (path moves) (helperOf moves) (keys.map Key.written) ps =
      (ofProperties script moves keys ps).map binding := by
  refine ofPattern.mutual_induct script _ _ _ ?name ?object ?array ?default ?noPattern ?noElements ?hole
    ?restElements ?element ?noProperties ?property ?restProperties ?noProperty
  case name =>
    intro moves name span cs
    rw [LoopBinding.ofPattern, ofPattern]
    rfl
  case object =>
    intro moves span ps ih
    rw [LoopBinding.ofPattern, ofPattern]
    exact ih
  case array =>
    intro moves span es ih
    rw [LoopBinding.ofPattern, ofPattern]
    exact ih
  case default =>
    intro moves span pattern value ih
    rw [path_snoc, helperOf_snoc_of_isHelper moves rfl] at ih
    rw [LoopBinding.ofPattern, ofPattern, ← ih]
    simp [Move.text, Move.helper?]
  case noPattern =>
    intro t moves hname hobject harray hdefault
    rw [LoopBinding.ofPattern, ofPattern]
    · rfl
    all_goals assumption
  case noElements =>
    intro moves index
    rw [LoopBinding.ofElements, ofElements]
    rfl
  case hole =>
    intro moves index span cs es ih
    rw [LoopBinding.ofElements, ofElements]
    exact ih
  case restElements =>
    intro moves index span pattern es ihpattern ihes
    rw [path_snoc, helperOf_snoc moves rfl] at ihpattern
    rw [LoopBinding.ofElements, ofElements, List.map_append, ← ihpattern, ← ihes]
    simp [Move.text, String.append_assoc]
  case element =>
    intro moves index e es hhole hrest ihe ihes
    rw [path_snoc, helperOf_snoc moves rfl] at ihe
    rw [LoopBinding.ofElements, ofElements, List.map_append, ← ihe, ← ihes]
    · simp [Move.text, String.append_assoc]
    all_goals assumption
  case noProperties =>
    intro moves keys
    rw [LoopBinding.ofProperties, ofProperties]
    rfl
  case property =>
    intro moves keys computed span key value ps ihvalue ihps
    rw [path_snoc, helperOf_snoc moves rfl] at ihvalue
    rw [List.map_append] at ihps
    rw [LoopBinding.ofProperties, stepTo_eq, ofProperties, List.map_append, ← ihvalue, ← ihps]
    rfl
  case restProperties =>
    intro moves keys span pattern ps ihpattern ihps
    rw [path_snoc, helperOf_snoc_of_isHelper moves rfl] at ihpattern
    rw [LoopBinding.ofProperties, ofProperties, List.map_append, ← ihpattern, ← ihps]
    simp [Move.text, Move.helper?]
  case noProperty =>
    intro moves keys p ps hproperty hrest ih
    rw [LoopBinding.ofProperties, ofProperties, ih] <;> assumption

/-- The text of the pattern of an item together with the tree of the pattern. A plain name is a pattern;
any other is read as the first parameter of a function. -/
def item? (pattern : String) : Option (String × Tree) :=
  let pattern := Text.trim pattern
  if Text.isPlainName pattern then
    some (pattern, .node (.binding pattern) ⟨0, pattern.utf8ByteSize⟩ [])
  else
    match Script.readWhole (LoopHead.wrap pattern) with
    | some (.node .arrow _ parts) =>
      let params := (parts.find? fun p => p.kind == .params).toList.flatMap Tree.children
      match params.find? fun p => p.kind == .param with
      | some (.node _ _ (p :: _)) => some (LoopHead.wrap pattern, p)
      | _ => none
    | _ => none

omit script in
theorem ofItem_eq {pattern script : String} {t : Tree} (h : item? pattern = some (script, t)) :
    LoopBinding.ofItem pattern = (ofPattern script [] t).map binding := by
  have hways := (bindings_eq script).1 [] t
  unfold item? at h
  unfold LoopBinding.ofItem
  by_cases hname : Text.isPlainName (Text.trim pattern) = true
  · simp only [hname, if_true, Option.some.injEq, Prod.mk.injEq] at h ⊢
    obtain ⟨rfl, rfl⟩ := h
    rw [ofPattern]
    rfl
  · simp only [if_neg hname] at h ⊢
    generalize Script.readWhole (LoopHead.wrap (Text.trim pattern)) = read at h ⊢
    rcases read with _ | ⟨kind, span, parts⟩
    · cases h
    · cases kind with
      | arrow =>
        dsimp only at h ⊢
        generalize ((parts.find? fun p => p.kind == .params).toList.flatMap Tree.children).find?
          (fun p => p.kind == .param) = param at h ⊢
        rcases param with _ | ⟨kind, span, _ | ⟨p, rest⟩⟩
        · cases h
        · cases h
        · obtain ⟨rfl, rfl⟩ := Prod.mk.inj (Option.some.inj h)
          exact hways
      | _ => cases h

/-- There is one way to each name that a pattern binds, in the order of the source. -/
theorem names_eq :
    (∀ moves t, (ofPattern script moves t).map name = t.boundNames) ∧
    (∀ moves index es, (ofElements script moves index es).map name = Tree.elementNames es) ∧
    ∀ moves keys ps, (ofProperties script moves keys ps).map name = Tree.propertyNames ps := by
  refine ofPattern.mutual_induct script _ _ _ ?name ?object ?array ?default ?noPattern ?noElements ?hole
    ?restElements ?element ?noProperties ?property ?restProperties ?noProperty
  case name =>
    intro moves name span cs
    rw [ofPattern, Tree.boundNames]
    rfl
  case object =>
    intro moves span ps ih
    rw [ofPattern, Tree.boundNames]
    exact ih
  case array =>
    intro moves span es ih
    rw [ofPattern, Tree.boundNames]
    exact ih
  case default =>
    intro moves span pattern value ih
    rw [ofPattern, Tree.boundNames]
    exact ih
  case noPattern =>
    intro t moves hname hobject harray hdefault
    rw [ofPattern, Tree.boundNames]
    · rfl
    all_goals assumption
  case noElements =>
    intro moves index
    rw [ofElements, Tree.elementNames]
    rfl
  case hole =>
    intro moves index span cs es ih
    rw [ofElements, Tree.elementNames, Tree.boundNames, ih] <;> simp
  case restElements =>
    intro moves index span pattern es ihpattern ihes
    rw [ofElements, Tree.elementNames, List.map_append, ihpattern, ihes]
  case element =>
    intro moves index e es hhole hrest ihe ihes
    rw [ofElements, Tree.elementNames, List.map_append, ihe, ihes] <;> assumption
  case noProperties =>
    intro moves keys
    rw [ofProperties, Tree.propertyNames]
    rfl
  case property =>
    intro moves keys computed span key value ps ihvalue ihps
    rw [ofProperties, Tree.propertyNames, List.map_append, ihvalue, ihps]
  case restProperties =>
    intro moves keys span pattern ps ihpattern ihps
    rw [ofProperties, Tree.propertyNames, List.map_append, ihpattern, ihps]
  case noProperty =>
    intro moves keys p ps hproperty hrest ih
    rw [ofProperties, Tree.propertyNames, ih] <;> assumption

end

end Way

end JsxTemplate
