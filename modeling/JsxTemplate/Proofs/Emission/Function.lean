import JsxTemplate.Proofs.Emission.Settled

/-!
# The functions of the code

A function brings along parameters and a group of variables. The functions of loops, and those of slots
with a pattern of names, have a number, which is part of the names of their parameters: it is the number
of such functions around.
-/

namespace JsxTemplate

/-- What a function of the code brings along. -/
structure FunctionScope where
  parameters : List String
  names : List (String × Option String)
  number : Option Nat

/-- What is written for a name of the pattern of an item. -/
def LoopBinding.code (item : String) (b : LoopBinding) : String :=
  let path := item ++ ".value" ++ b.path
  match b.helper with
  | none => path
  | some (.rest excluded) => "_" ++ "getRestElement" ++ "(" ++ path ++ ", " ++ excluded ++ ")"
  | some (.default value) => "_" ++ "getDefaultValue" ++ "(" ++ path ++ ", " ++ value ++ ")"

namespace LoopHead

/-- The parameters of the function that renders an item, and what stands for the names of the loop, if
the function has the number `depth`. -/
def scope (depth : Nat) (head : LoopHead) : Emit.LoopScope :=
  let item := "_for_item" ++ toString depth
  let key := Emit.LoopScope.ofName ("_for_key" ++ toString depth) (nameOf head.key)
  let index := Emit.LoopScope.ofName ("_for_index" ++ toString depth) (nameOf head.index)
  ⟨item :: key.parameters ++ index.parameters,
    (item, none) :: head.itemBindings.map (fun b => (b.name, some (b.code item)))
      ++ key.names ++ index.names⟩

end LoopHead

/-- What a slot brings along, if its parameter would have the number `depth`. -/
def Emit.SlotScope.of (depth : Nat) (pattern : Option Expression) : Emit.SlotScope :=
  let text := (pattern.map fun e => Text.trim e.content).getD ""
  if Text.isPlainName text then ⟨[(text, none)], some text, false⟩
  else if text.isEmpty then ⟨[], none, false⟩
  else .ofPattern depth text

namespace FunctionScope

def thunk : FunctionScope := ⟨[], [], none⟩

def ofLoop (depth : Nat) (head : LoopHead) : FunctionScope :=
  ⟨(head.scope depth).parameters, (head.scope depth).names, some depth⟩

def ofSlot (depth : Nat) (pattern : Option Expression) : FunctionScope :=
  let scope := Emit.SlotScope.of depth pattern
  ⟨scope.parameter.toList, scope.names, if scope.numbered then some depth else none⟩

def behind (f : FunctionScope) (entries : List (String × Option String)) : FunctionScope :=
  { f with names := entries ++ f.names }

/-- The functions that can be opened where the next number is `depth`. -/
inductive Opens (depth : Nat) : FunctionScope → Prop
  | thunk : Opens depth thunk
  | loop (head : LoopHead) : Opens depth (ofLoop depth head)
  | slot (pattern : Option Expression) : Opens depth (ofSlot depth pattern)
  | loopSlot (head : LoopHead) (pattern : Option Expression) :
    Opens depth ((ofSlot depth pattern).behind head.shadows)

def inside (f : FunctionScope) (κ : Ambient) : Ambient :=
  { κ with names := κ.names.push f.names, depth := κ.depth + f.number.toList.length }

theorem inside_eq {κ κ' : Ambient} {f : FunctionScope} (h : κ = κ') (_ : f.Opens κ.depth) :
    f.inside κ = f.inside κ' := h ▸ rfl

theorem inside_behind (f : FunctionScope) (entries : List (String × Option String)) (κ : Ambient) :
    (f.behind entries).inside κ = f.inside (κ.push entries) := by
  simp only [inside, behind, Ambient.push, Renaming.push, List.reverse_append, List.append_assoc]

theorem Opens.number_eq {depth n : Nat} {f : FunctionScope} (h : f.Opens depth)
    (hn : f.number = some n) : n = depth := by
  have hslot : ∀ pattern, (ofSlot depth pattern).number = some n → n = depth := by
    intro pattern hn
    simp only [ofSlot] at hn
    split at hn
    · exact (Option.some.inj hn).symm
    · exact absurd hn (by simp)
  cases h with
  | thunk => exact absurd hn (by simp [FunctionScope.thunk])
  | loop head => exact (Option.some.inj hn).symm
  | slot pattern | loopSlot head pattern => exact hslot pattern hn

end FunctionScope

theorem Ambient.Matches.inside {κ κ' : Ambient} (h : κ.Matches κ') (f : FunctionScope) :
    (f.inside κ).Matches (f.inside κ') :=
  { h with
    names := h.names.push f.names
    depth := congrArg (· + f.number.toList.length) h.depth }

namespace Emit

variable {α β : Type} {σ τ σ' τ' : Scene}

/-! ## Loops and slots -/

theorem yields_enterScope (σ : Scene) : Yields enterScope σ σ.depth [] σ.deeper :=
  .of_delegates_eq (by rintro s rfl; exact ⟨rfl, rfl⟩) fun _ => rfl

theorem yields_exitScope (σ : Scene) : Yields exitScope σ.deeper ⟨⟩ [] σ := by
  refine .of_delegates_eq (fun s hs => ⟨rfl, ?_⟩) fun _ => rfl
  calc (exitScope s).2.scene
      = { s.scene with depth := s.scene.depth - 1 } := rfl
    _ = { σ.deeper with depth := σ.deeper.depth - 1 } := by rw [hs]
    _ = σ := rfl

theorem yields_bindingCode (σ : Scene) (item : String) (b : LoopBinding) :
    Yields (bindingCode item b) σ (b.code item) [] σ := by
  unfold bindingCode LoopBinding.code
  rcases b.helper with _ | excluded | value
  · exact .pure σ _
  · refine .bind_of_nil (yields_helper σ _) ?_
    exact .pure σ _
  · refine .bind_of_nil (yields_helper σ _) ?_
    exact .pure σ _

theorem yields_enterLoop (σ : Scene) (head : LoopHead) :
    Yields (enterLoop head) σ (head.scope σ.depth) [] σ.deeper := by
  refine .bind_of_nil (yields_enterScope σ) ?_
  have hentry : ∀ b, Yields (bindingEntry ("_for_item" ++ toString σ.depth) b) σ.deeper
      (b.name, some (b.code ("_for_item" ++ toString σ.depth))) [] σ.deeper := by
    intro b
    refine .bind_of_nil (yields_bindingCode σ.deeper _ b) ?_
    exact .pure _ _
  refine .bind_of_nil (.mapM hentry head.itemBindings) ?_
  exact .pure _ _

def Scene.inSlot (scope : SlotScope) (σ : Scene) : Scene := if scope.numbered then σ.deeper else σ

theorem yields_enterSlot (σ : Scene) (pattern : Option Expression) :
    Yields (enterSlot pattern) σ (.of σ.depth pattern) []
      (Scene.inSlot (.of σ.depth pattern) σ) := by
  unfold enterSlot SlotScope.of
  generalize (pattern.map fun e => Text.trim e.content).getD "" = text
  by_cases hplain : Text.isPlainName text = true
  · simp only [hplain, if_true]
    exact .pure σ _
  · by_cases hempty : text.isEmpty = true
    · simp only [hplain, hempty, if_true]
      exact .pure σ _
    · simp only [hplain, hempty]
      refine .bind_of_nil (yields_enterScope σ) ?_
      exact .pure σ.deeper _

theorem yields_exitSlot (σ : Scene) (scope : SlotScope) :
    Yields (exitSlot scope) (Scene.inSlot scope σ) ⟨⟩ [] σ := by
  unfold exitSlot Scene.inSlot
  cases scope.numbered with
  | true => exact yields_exitScope σ
  | false => exact .pure σ _

/-! ## Names and blocks -/

theorem Yields.withNames {x : Emit α} {a : α} {events : List String}
    {entries : List (String × Option String)} (h : Yields x (σ.push entries) a events (σ.push entries)) :
    Yields (Emit.withNames entries x) σ a events σ := by
  rintro s rfl
  obtain ⟨ha, hscene, hevents⟩ := h (pushNames entries s).2 rfl
  refine ⟨ha, ?_, hevents⟩
  calc (Emit.withNames entries x s).2.scene
      = let ρ := (x (pushNames entries s).2).2.scene
        { ρ with names := ρ.names.pop (entries.map Prod.fst) } := rfl
    _ = { s.scene with names := (s.names.push entries).pop (entries.map Prod.fst) } := by rw [hscene]; rfl
    _ = s.scene := by rw [Renaming.pop_push]; rfl

theorem Yields.withBlock {x : Emit Listing} {l : Listing} {events : List String} {b : Block}
    (next : Nat) (h : Yields x (σ.enter b 0) l events (σ.enter b next)) :
    Yields (Emit.withBlock b x) σ l events σ := by
  rintro s rfl
  obtain ⟨ha, hscene, hevents⟩ := h (enterBlock b s).2 rfl
  refine ⟨ha, ?_, hevents⟩
  calc (Emit.withBlock b x s).2.scene
      = let ρ := (x (enterBlock b s).2).2.scene
        { ρ with blocks := ρ.blocks.tail } := rfl
    _ = s.scene := by rw [hscene]; rfl

theorem Parallel.withNames {Q : List String → α → α → Prop} {x y : Emit α}
    {entries : List (String × Option String)}
    (h : Parallel (σ.push entries) (τ.push entries) x y Q (σ.push entries) (τ.push entries)) :
    Parallel σ τ (Emit.withNames entries x) (Emit.withNames entries y) Q σ τ := by
  obtain ⟨a, b, events, hx, hy, hab⟩ := h
  exact ⟨a, b, events, hx.withNames, hy.withNames, hab⟩

theorem Parallel.withBlock {Q : List String → Listing → Listing → Prop} {x y : Emit Listing} {b : Block}
    (next : Nat)
    (h : Parallel (σ.enter b 0) (τ.enter b 0) x y Q (σ.enter b next) (τ.enter b next)) :
    Parallel σ τ (Emit.withBlock b x) (Emit.withBlock b y) Q σ τ := by
  obtain ⟨l, l', events, hx, hy, hl⟩ := h
  exact ⟨l, l', events, hx.withBlock next, hy.withBlock next, hl⟩

end Emit

end JsxTemplate
