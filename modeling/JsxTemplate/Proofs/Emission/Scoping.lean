import JsxTemplate.Proofs.Emission.Loop

/-!
# Scopes

Loops and slots bring variables along while their bodies are written. However they are nested, every
action of code generation leaves what is known of variables as it was, and so each variable is replaced as
the innermost loop or slot around says that knows it.

Where a body stands can be read off the code: it is the body of a function, inside the bodies of others. So
the result is stated for every chain of functions, each inside the one before (`Listing.Chain`).
-/

namespace JsxTemplate

open Emit Correspondence

/-! ## Lookup -/

namespace Renaming

theorem foldl_push_find? (groups : List (List (String × Option String))) (r : Renaming)
    (name : String) : (groups.foldl push r).find? name =
      (groups.reverse.findSome? fun entries => innermost? entries name).or (r.find? name) := by
  induction groups generalizing r with
  | nil => rfl
  | cons entries groups ih =>
    rw [List.foldl_cons, ih, find?_push, List.reverse_cons, List.findSome?_append, Option.or_assoc]
    simp

end Renaming

/-! ## Chains of functions -/

/-- Whether a listing is reached by entering functions, each inside the one before, whose parameters are
given. -/
inductive Listing.Chain : Listing → List (List String) → Listing → Prop
  | here (l : Listing) : Chain l [] l
  | enter {l body inner : Listing} {parameters : List String} {path : List (List String)}
    (hmem : .function parameters body ∈ l) (h : Chain body path inner) :
    Chain l (parameters :: path) inner

namespace FunctionScope

/-- Functions that can be opened one inside the other, the first where the next number is `depth`. -/
inductive Nested : Nat → List FunctionScope → Prop
  | nil (depth : Nat) : Nested depth []
  | cons {depth : Nat} {f : FunctionScope} {fs : List FunctionScope} (hf : f.Opens depth)
    (hfs : Nested (depth + f.number.toList.length) fs) : Nested depth (f :: fs)

def insideAll (fs : List FunctionScope) (κ : Ambient) : Ambient := fs.foldl (fun κ f => f.inside κ) κ

theorem Nested.numbers_eq {depth : Nat} {fs : List FunctionScope} (h : Nested depth fs) :
    fs.filterMap number = List.range' depth (fs.filterMap number).length := by
  induction h with
  | nil depth => rfl
  | @cons depth f fs hf hfs ih =>
    cases hn : f.number with
    | none =>
      rw [hn] at ih
      simpa [hn] using ih
    | some n =>
      obtain rfl := hf.number_eq hn
      rw [hn] at ih
      rw [List.filterMap_cons_some hn, List.length_cons, List.range'_succ]
      exact congrArg _ ih

theorem insideAll_names (fs : List FunctionScope) (κ : Ambient) :
    (insideAll fs κ).names = (fs.map names).foldl Renaming.push κ.names := by
  induction fs generalizing κ with
  | nil => rfl
  | cons f fs ih => exact ih (f.inside κ)

theorem insideAll_depth (fs : List FunctionScope) (κ : Ambient) :
    (insideAll fs κ).depth = κ.depth + (fs.filterMap number).length := by
  induction fs generalizing κ with
  | nil => rfl
  | cons f fs ih =>
    rw [show insideAll (f :: fs) κ = insideAll fs (f.inside κ) from rfl, ih]
    cases hn : f.number with
    | none => simp [inside, hn]
    | some n =>
      simp only [inside, hn, Option.toList_some, List.length_cons, List.length_nil, List.filterMap_cons]
      omega

end FunctionScope

/-! ## The functions in the code of a block -/

theorem Listing.mem_bodies_of_mem {parameters : List String} {body l : Listing}
    (h : .function parameters body ∈ l) : body ∈ l.bodies := by
  rw [Listing.bodies_eq_flatMap]
  refine List.mem_flatMap.mpr ⟨_, h, ?_⟩
  rw [Piece.bodies]
  exact List.mem_cons_self

/-- Whether the functions of a listing can be opened where something is in force, and have the bodies of
blocks. -/
def Listing.Scoped (κ : Ambient) (l : Listing) : Prop :=
  ∀ parameters body, .function parameters body ∈ l →
    ∃ (f : FunctionScope) (b : Block), f.Opens κ.depth ∧ f.parameters = parameters ∧
      b.Written (f.inside κ) body

theorem Listing.Scoped.of_flat {κ : Ambient} {l : Listing} (h : l.bodies = []) : l.Scoped κ := by
  intro parameters body hmem
  have := Listing.mem_bodies_of_mem hmem
  rw [h] at this
  exact absurd this List.not_mem_nil

theorem Listing.Scoped.append {κ : Ambient} {l l' : Listing} (h : l.Scoped κ) (h' : l'.Scoped κ) :
    Listing.Scoped κ (l ++ l') := fun parameters body hmem =>
  (List.mem_append.mp hmem).elim (h parameters body) (h' parameters body)

theorem Listing.Scoped.effectFunction {κ : Ambient} {l : Listing} (h : l.Scoped κ) :
    l.effectFunction.Scoped κ := by
  intro parameters body hmem
  unfold Listing.effectFunction at hmem
  split at hmem
  · simp [Piece.text, Piece.newline] at hmem
    exact h parameters body hmem
  · simp [Piece.text] at hmem
    exact h parameters body hmem.1

namespace Correspondence

/-- The functions of the code of a single run. -/
def functions : Correspondence where
  Compared κ κ' := κ = κ'
  Covers _ := True
  Rel κ _ _ _ l l' := l = l' ∧ l.Scoped κ
  alike := @Ambient.Matches.of_eq
  inside := @FunctionScope.inside_eq
  events h _ := h
  flat hflat := ⟨rfl, .of_flat hflat.bodies⟩
  append := by
    rintro κ κ' own own' events events' l₁ _ l₂ _ ⟨rfl, h₁⟩ ⟨rfl, h₂⟩
    exact ⟨rfl, h₁.append h₂⟩
  framed := by
    rintro κ κ' own events left l _ right hframe ⟨rfl, h⟩
    have hends := List.append_eq_nil_iff.mp ((Listing.bodies_append _ _).symm.trans hframe.bodies)
    exact ⟨rfl, ((Listing.Scoped.of_flat hends.1).append h).append (.of_flat hends.2)⟩
  rerun := by
    rintro κ κ' own events l _ ⟨rfl, h⟩
    exact ⟨rfl, rfl, h.effectFunction⟩
  function := by
    rintro κ _ f b own events body _ rfl hf - - hbody _ ⟨rfl, -⟩
    refine ⟨rfl, fun parameters body' hmem => ?_⟩
    obtain ⟨rfl, rfl⟩ : parameters = f.parameters ∧ body' = body := by simpa using hmem
    exact ⟨f, b, hf, rfl, hbody⟩

theorem functions_loops : functions.Loops := by
  refine loops_of_same ?_
  rintro κ _ rfl
  rfl

theorem functions_body (b : Block) : functions.Body b := body functions_loops fun _ _ => trivial

end Correspondence

theorem Block.Written.isScoped {b : Block} {κ : Ambient} {l : Listing} (h : b.Written κ l) :
    l.Scoped κ := by
  have hbody := functions_body b
  cases h with
  | block root around =>
    obtain ⟨_, -, l, l', events, hx, -, -, hl⟩ :=
      hbody.blockBody root (σ := ⟨κ, around⟩) (τ := ⟨κ, around⟩) rfl
    rw [hx.value]
    exact hl
  | loop id kind around =>
    obtain ⟨_, -, l, l', events, hx, -, -, hl⟩ :=
      hbody.loopBody id kind (σ := ⟨κ, around⟩) (τ := ⟨κ, around⟩) rfl
    rw [hx.value]
    exact hl

theorem Block.Written.chain {b : Block} {κ : Ambient} {l inner : Listing} {path : List (List String)}
    (hl : b.Written κ l) (h : l.Chain path inner) :
    ∃ fs : List FunctionScope, FunctionScope.Nested κ.depth fs ∧ fs.map FunctionScope.parameters = path ∧
      ∃ b', Block.Written b' (FunctionScope.insideAll fs κ) inner := by
  induction h generalizing b κ with
  | here l => exact ⟨[], .nil _, rfl, b, hl⟩
  | @enter l body inner parameters path hmem h ih =>
    obtain ⟨f, b₁, hf, rfl, hbody⟩ := hl.isScoped parameters body hmem
    obtain ⟨fs, hfs, rfl, hinner⟩ := ih hbody
    exact ⟨f :: fs, .cons hf hfs, rfl, hinner⟩

/-! ## Restoration -/

namespace Emit

/-- Whether an action leaves what is known of variables, the number of scopes and the blocks around as
they were. -/
def Restores {α : Type} (x : Emit α) : Prop :=
  ∀ s, (x s).2.names = s.names ∧ (x s).2.depth = s.depth ∧ (x s).2.blocks = s.blocks

theorem restores_of_scene {α : Type} {x : Emit α} (h : ∀ s, (x s).2.scene = s.scene) : Restores x :=
  fun s => ⟨congrArg (·.names) (h s), congrArg (·.depth) (h s), congrArg (·.blocks) (h s)⟩

theorem restores_of_parallel {x : Emit Listing} {own : List String}
    (h : ∀ σ : Scene, Parallel σ σ x x (functions.Rel σ.toAmbient σ.toAmbient own) σ σ) : Restores x := by
  refine restores_of_scene fun s => ?_
  obtain ⟨_, _, _, hx, -⟩ := h s.scene
  exact (hx s rfl).2.1

theorem restores_of_steady {x : Emit Listing} {own : List String} (h : functions.Steady own x) :
    Restores x :=
  restores_of_parallel fun _ => h ⟨rfl, rfl⟩

theorem restores_blockBody (root : Bool) (b : Block) : Restores (Listing.blockBody root b) := by
  refine restores_of_scene fun s => ?_
  obtain ⟨_, -, _, _, _, hx, -⟩ := (functions_body b).blockBody root (σ := s.scene) (τ := s.scene) rfl
  exact (hx s rfl).2.1

theorem restores_operation (op : Operation) : Restores (Listing.operation op) :=
  restores_of_steady (steady_operation functions_loops fun b _ => functions_body b)

theorem restores_loop (l : LoopPlan) : Restores (Listing.loop l) :=
  restores_of_steady (functions_loops l (functions_body l.render))

theorem restores_slotBody (body : SlotBody) : Restores (Listing.slotBody body) :=
  restores_of_parallel fun σ =>
    parallel_slotBody (σ := σ) (τ := σ) (fun b _ => functions_body b) rfl [] (.slot body.pattern)

theorem restores_dynamicSlot (slot : DynamicSlot) : Restores (Listing.dynamicSlot slot) :=
  restores_of_steady (steady_dynamicSlot fun b _ => functions_body b)

theorem restores_nodeValue (once : Bool) (blocks : List NestedBlock) (e : Expression) :
    Restores (nodeValue once blocks
      (fun e references => Listing.nestedExpression e references 0 blocks) e) :=
  restores_of_steady (steady_nodeValue once fun b _ => functions_body b)

def finalState (options : EmitOptions) (plan : RenderPlan) : Emitter :=
  (moduleStatements plan (renderExpression plan.block (.ofPlan options plan)).2).2

theorem moduleStatements_scene (plan : RenderPlan) (s : Emitter) :
    (moduleStatements plan s).2.scene = s.scene := by
  have htemplate : ∀ x : String × Nat, Settled (fun _ => True)
      (templateStatement x.2 x.1 (plan.rootTemplates.contains x.2)) := fun _ =>
    (settled_helper "template").bind fun _ _ => .pure trivial
  have hevent : ∀ e, Settled (fun _ => True) (eventStatement e) := fun _ =>
    (settled_helper _).bind fun _ _ => .pure trivial
  exact ((Settled.mapM hevent _).holds _).1.trans ((Settled.mapM htemplate plan.templates.zipIdx).holds s).1

theorem finalState_scene (options : EmitOptions) (plan : RenderPlan) :
    (finalState options plan).names = [] ∧ (finalState options plan).depth = 0 ∧
      (finalState options plan).blocks = [] := by
  have hmodule := restores_of_scene (moduleStatements_scene plan)
    (renderExpression plan.block (.ofPlan options plan)).2
  have hblock := restores_blockBody true plan.block (.ofPlan options plan)
  exact ⟨hmodule.1.trans hblock.1, hmodule.2.1.trans hblock.2.1, hmodule.2.2.trans hblock.2.2⟩

/-- Every action of code generation restores what is known of variables, and inside any chain of functions
a variable stands for what the innermost function says that knows it. The functions with numbers in a
chain are numbered one after the other. -/
theorem scopes_restored_and_innermost_first :
    ((∀ root b, Restores (Listing.blockBody root b)) ∧ (∀ op, Restores (Listing.operation op)) ∧
      (∀ l, Restores (Listing.loop l)) ∧ (∀ body, Restores (Listing.slotBody body)) ∧
      (∀ slot, Restores (Listing.dynamicSlot slot)) ∧ (∀ e, Restores (expression e)) ∧
      ∀ once blocks e, Restores (nodeValue once blocks
        (fun e references => Listing.nestedExpression e references 0 blocks) e)) ∧
    (∀ options plan, (finalState options plan).names = [] ∧ (finalState options plan).depth = 0 ∧
      (finalState options plan).blocks = []) ∧
    (∀ (r : Renaming) (groups : List (List (String × Option String))) name,
      (groups.foldl Renaming.push r).find? name =
        (groups.reverse.findSome? fun entries => Renaming.innermost? entries name).or (r.find? name)) ∧
    ∀ root b (s : Emitter) path inner, (Listing.blockBody root b s).1.Chain path inner →
      ∃ fs : List FunctionScope, FunctionScope.Nested s.depth fs ∧
        fs.map FunctionScope.parameters = path ∧
        fs.filterMap FunctionScope.number =
          List.range' s.depth (fs.filterMap FunctionScope.number).length ∧
        (∃ b', Block.Written b' (FunctionScope.insideAll fs s.scene.toAmbient) inner) ∧
        (FunctionScope.insideAll fs s.scene.toAmbient).depth =
          s.depth + (fs.filterMap FunctionScope.number).length ∧
        (FunctionScope.insideAll fs s.scene.toAmbient).names =
          (fs.map FunctionScope.names).foldl Renaming.push s.names := by
  refine ⟨⟨restores_blockBody, restores_operation, restores_loop, restores_slotBody,
    restores_dynamicSlot, fun e => restores_of_scene fun s => ((settled_expression e).holds s).1, restores_nodeValue⟩,
    finalState_scene, fun r groups name => Renaming.foldl_push_find? groups r name, ?_⟩
  intro root b s path inner h
  have hwritten : b.Written s.scene.toAmbient (Listing.blockBody root b s).1 := by
    obtain ⟨_, -, l, _, _, hx, -⟩ := (functions_body b).blockBody root (σ := s.scene) (τ := s.scene) rfl
    rw [(hx s rfl).1, ← hx.value]
    exact .block root s.blocks
  obtain ⟨fs, hfs, hpath, hinner⟩ := hwritten.chain h
  exact ⟨fs, hfs, hpath, hfs.numbers_eq, hinner, FunctionScope.insideAll_depth fs _,
    FunctionScope.insideAll_names fs _⟩

end Emit

/-! ## Loops inside loops -/

def Listing.function? (l : Listing) : Option (List String × Listing) :=
  l.findSome? fun
    | .function parameters body => some (parameters, body)
    | _ => none

theorem Listing.mem_of_function? {l body : Listing} {parameters : List String}
    (h : l.function? = some (parameters, body)) : .function parameters body ∈ l := by
  obtain ⟨p, hp, hfound⟩ := List.exists_of_findSome?_eq_some h
  cases p with
  | function parameters' body' =>
    obtain ⟨rfl, rfl⟩ : parameters' = parameters ∧ body' = body := by simpa using hfound
    exact hp
  | _ => exact absurd hfound (by simp)

def Block.ofOperations (ops : List Operation) : Block :=
  ⟨.stub, ⟨none, false, false, false, none, [], none, false, none⟩, [], ops, []⟩

/-- A block with a loop inside a loop, both of which have a variable `x`. -/
def nestedLoops : Block :=
  let head (source : String) : LoopHead := ⟨.ofScript source, some (.ofScript "x"), none, none⟩
  let inner : LoopPlan := ⟨1, head "x", none, .ofOperations [], false, false, false⟩
  .ofOperations [.loop ⟨0, head "xs", none, .ofOperations [.loop inner none], false, false, false⟩ none]

/-- The functions of the two loops have different numbers. -/
theorem scopes_restored_and_innermost_first_nested :
    let s : Emitter := Scene.start ⟨⟨⟨false, true⟩, false, [], 0⟩, []⟩
    ∃ (inner : Listing) (fs : List FunctionScope),
      (Listing.blockBody true nestedLoops s).1.Chain [["_for_item0"], ["_for_item1"]] inner ∧
      fs.map FunctionScope.parameters = [["_for_item0"], ["_for_item1"]] ∧
      fs.filterMap FunctionScope.number =
        List.range' 0 (fs.filterMap FunctionScope.number).length := by
  intro s
  let l := (Listing.blockBody true nestedLoops s).1
  have houter : l.function?.map Prod.fst = some ["_for_item0"] := by decide +kernel
  have hinner : (l.function?.bind fun f => f.2.function?).map Prod.fst = some ["_for_item1"] := by
    decide +kernel
  obtain ⟨⟨_, body⟩, hbody, rfl⟩ := Option.map_eq_some_iff.mp houter
  rw [hbody, Option.bind_some] at hinner
  obtain ⟨⟨_, inner⟩, hfound, rfl⟩ := Option.map_eq_some_iff.mp hinner
  have hchain : l.Chain [["_for_item0"], ["_for_item1"]] inner :=
    .enter (Listing.mem_of_function? hbody) (.enter (Listing.mem_of_function? hfound) (.here inner))
  obtain ⟨fs, -, hpath, hnumbers, -⟩ :=
    Emit.scopes_restored_and_innermost_first.2.2.2 true nestedLoops s _ inner hchain
  exact ⟨inner, fs, hchain, hpath, hnumbers⟩

end JsxTemplate
